import RiseOS.Heap.Calls
import RiseOS.Paging.Effects

/-! kfree_page_frame clears bits far behind the bitmap, and where the linker has put it
these can be bits of the heap. The model keeps the bitmap apart from the heap's bytes,
which is right of a free whose clears, taken as stores into the heap, change nothing. -/
namespace RiseOS
open Words

/-- The heap's bytes as words of a bitmap that begins at `bitmapAt`. -/
def Heap.bitmap (s : Heap) (bitmapAt : Nat) : Bitmap :=
  fun w => BitVec.ofNat 32 (load32 s.mem (wrap (bitmapAt + 4 * w)))

/-- CLEARBIT(i) of the bitmap at `bitmapAt`, if its word lies in the heap. -/
def Heap.strayClear (s : Heap) (bitmapAt i : Nat) : Heap :=
  let w := i / blocksPerBucket
  let a := wrap (bitmapAt + 4 * w)
  if s.vmm.heapStart ≤ a then
    { s with mem := store32 s.mem a (clearbit (s.bitmap bitmapAt) i w).toNat }
  else s

/-- The index that kfree_page_frame clears for the page of `va`. -/
def Vmm.freedIndex (s : Vmm) (va : Nat) : Nat :=
  wsub (s.entryOf va).frame.toNat s.pmm.placementaddr / 0x1000

/-- CLEARBIT(i) finds no set bit of the heap. -/
def Heap.ClearSpares (s : Heap) (bitmapAt i : Nat) : Prop :=
  s.vmm.heapStart ≤ wrap (bitmapAt + 4 * (i / blocksPerBucket)) → isset (s.bitmap bitmapAt) i = false

instance (s : Heap) (bitmapAt i : Nat) : Decidable (s.ClearSpares bitmapAt i) :=
  inferInstanceAs (Decidable (_ → _))

/-- liballoc_free(ptr, pages) clears no set bit of the heap. -/
def Heap.RegionSpares (s : Heap) (bitmapAt ptr : Nat) (pages : Int) : Prop :=
  ∀ va ∈ regionPages ptr (wrap (ptr + regionSize pages)), PagePresent s.vmm va →
    s.ClearSpares bitmapAt (s.vmm.freedIndex va)

instance (s : Heap) (bitmapAt ptr : Nat) (pages : Int) :
    Decidable (s.RegionSpares bitmapAt ptr pages) :=
  inferInstanceAs (Decidable (∀ va ∈ _, _ → _))

/-- free(ptr) clears no set bit of the heap. -/
def Heap.FreeSpares (s : Heap) (bitmapAt ptr : Nat) : Prop :=
  ptr ≠ 0 → ∀ m tag pages, HandsBack s ptr m tag pages → m.RegionSpares bitmapAt tag pages

instance (s : Heap) (bitmapAt ptr : Nat) : Decidable (s.FreeSpares bitmapAt ptr) :=
  decidable_of_iff (ptr ≠ 0 → s.lock = 0 → s.get .magic (wsub ptr sizeofTag) = liballocMagic →
    (({ s with lock := 1 } : Heap).melted (wsub ptr sizeofTag)).all (fun r => r.1.complete r.2 →
      r.1.completePages (bucket (wsub (r.1.get .realSize r.2) sizeofTag)) = maxComplete →
        r.1.RegionSpares bitmapAt r.2 (neededPages (r.1.get .realSize r.2))) = true) <| by
    constructor
    · rintro spares node m tag pages ⟨unlocked, magic, melted, complete, full, rfl⟩
      have all := spares node unlocked magic
      rw [melted] at all
      exact of_decide_eq_true all complete full
    · intro spares node unlocked magic
      cases melted : ({ s with lock := 1 } : Heap).melted (wsub ptr sizeofTag) with
      | none => rfl
      | some r =>
        exact decide_eq_true fun complete full =>
          spares node r.1 r.2 _ ⟨unlocked, magic, melted, complete, full, rfl⟩

section Clears

variable (s : Vmm) (va vb : Nat)

theorem freePage_clears : (s.freePage va).pmm.bitmap =
    if PagePresent s va then clearbit s.pmm.bitmap (s.freedIndex va) else s.pmm.bitmap := by
  unfold Vmm.freePage
  dsimp only
  by_cases null : s.dir.tables (pagedirIndex va) = 0
  · have absent : ¬ PagePresent s va := fun both => both.1 null
    rw [if_pos null, if_neg absent]
    rfl
  · rw [if_neg null]
    by_cases entry : (s.page (s.dir.tables (pagedirIndex va)) (pagetblIndex va)).present = true
    · have present : PagePresent s va := ⟨null, entry⟩
      rw [if_neg (by simp [entry]), if_pos present]
      exact congrArg Pmm.bitmap (kfreePageFrame_eq _ _)
    · have absent : ¬ PagePresent s va := fun both => entry both.2
      rw [if_pos (by simpa using entry), if_neg absent]
      rfl

/-- free_page keeps the frame of every entry, and makes no page present. -/
theorem freePage_entryOf : ((s.freePage va).entryOf vb).frame = (s.entryOf vb).frame ∧
    (((s.freePage va).entryOf vb).present = true → (s.entryOf vb).present = true) := by
  unfold Vmm.entryOf Vmm.page
  rw [freePage_tables, freePage_entries]
  split
  · by_cases own : pageAddress (s.dir.tables (pagedirIndex vb)) (pagetblIndex vb) =
        pageAddress (s.dir.tables (pagedirIndex va)) (pagetblIndex va)
    · rw [own, Function.update_self]
      exact ⟨rfl, fun present => absurd present Bool.false_ne_true⟩
    · rw [Function.update_of_ne own]
      exact ⟨rfl, id⟩
  · exact ⟨rfl, id⟩

theorem freedIndex_freePage : (s.freePage va).freedIndex vb = s.freedIndex vb := by
  unfold Vmm.freedIndex
  rw [(freePage_entryOf s va vb).1, freePage_pmm]

end Clears

/-- free_page over a list of pages clears the bits of some that were present. -/
theorem freePages_clear (vas : List Nat) (s : Vmm) : ∃ freed : List Nat, freed ⊆ vas ∧
    (∀ va ∈ freed, PagePresent s va) ∧
    (vas.foldl Vmm.freePage s).pmm.bitmap = (freed.map s.freedIndex).foldl clearbit s.pmm.bitmap := by
  induction vas generalizing s with
  | nil => exact ⟨[], List.Subset.refl _, fun _ none => absurd none List.not_mem_nil, rfl⟩
  | cons va rest ih =>
    obtain ⟨freed, inside, present, bits⟩ := ih (s.freePage va)
    have indices : freed.map (s.freePage va).freedIndex = freed.map s.freedIndex :=
      List.map_congr_left fun vb _ => freedIndex_freePage s va vb
    have before : ∀ vb ∈ freed, PagePresent s vb := by
      intro vb mem
      obtain ⟨table, entry⟩ := present vb mem
      rw [freePage_tables] at table
      exact ⟨table, (freePage_entryOf s va vb).2 entry⟩
    rw [List.foldl_cons, bits, indices, freePage_clears]
    by_cases here : PagePresent s va
    · rw [if_pos here]
      refine ⟨va :: freed, List.cons_subset_cons va inside, ?_, rfl⟩
      exact List.forall_mem_cons.mpr ⟨here, before⟩
    · rw [if_neg here]
      exact ⟨freed, List.subset_cons_of_subset va inside, before, rfl⟩

/-- A clear that finds no set bit leaves every byte as it is. -/
theorem Heap.ClearSpares.kept {s : Heap} {bitmapAt i : Nat} (spares : s.ClearSpares bitmapAt i)
    {a : Nat} (word : a < 2 ^ 32) : (s.strayClear bitmapAt i).mem a = s.mem a := by
  unfold Heap.strayClear
  dsimp only
  split
  · rename_i inside
    have same : clearbit (s.bitmap bitmapAt) i (i / blocksPerBucket) =
        s.bitmap bitmapAt (i / blocksPerBucket) := by
      rw [clearbit_clear (spares inside)]
    rw [same, Heap.bitmap, BitVec.toNat_ofNat, Nat.mod_eq_of_lt (load32_lt _ _)]
    exact store32_load32 _ (wrap_lt _) word
  · rfl

theorem strayClear_vmm (s : Heap) (bitmapAt i : Nat) : (s.strayClear bitmapAt i).vmm = s.vmm := by
  unfold Heap.strayClear
  dsimp only
  split <;> rfl

theorem strayClears_kept (indices : List Nat) {s : Heap} {bitmapAt a : Nat} (word : a < 2 ^ 32)
    (spares : ∀ i ∈ indices, s.ClearSpares bitmapAt i) :
    (indices.foldl (fun m i => m.strayClear bitmapAt i) s).mem a = s.mem a := by
  induction indices generalizing s with
  | nil => rfl
  | cons i rest ih =>
    have here := spares i List.mem_cons_self
    have same : (s.strayClear bitmapAt i).bitmap bitmapAt = s.bitmap bitmapAt := by
      funext w
      exact congrArg _ (load32_congr fun k _ => here.kept (wrap_lt _))
    rw [List.foldl_cons, ih fun j later => ?_, here.kept word]
    unfold Heap.ClearSpares
    rw [strayClear_vmm, same]
    exact spares j (List.mem_cons_of_mem _ later)

/-- The clears of a liballoc_free that spares the heap, done in the heap as well, leave
every byte as it is. -/
theorem Heap.RegionSpares.kept {s : Heap} {bitmapAt ptr : Nat} {pages : Int}
    (spares : s.RegionSpares bitmapAt ptr pages) (word : ptr < 2 ^ 32) {v : Vmm} {r : Int}
    (call : s.vmm.liballocFree ptr pages = some (v, r)) : ∃ indices : List Nat,
    v.pmm.bitmap = indices.foldl clearbit s.vmm.pmm.bitmap ∧ ∀ a, a < 2 ^ 32 →
      (indices.foldl (fun m i => m.strayClear bitmapAt i) s).mem a = s.mem a := by
  rw [liballocFree_eq _ _ _ word] at call
  split at call
  · obtain ⟨freed, inside, present, bits⟩ :=
      freePages_clear (regionPages ptr (wrap (ptr + regionSize pages))) s.vmm
    obtain ⟨rfl, _⟩ := Prod.mk.inj (Option.some.inj call)
    refine ⟨freed.map s.vmm.freedIndex, bits, fun a low => strayClears_kept _ low fun i mem => ?_⟩
    obtain ⟨va, page, rfl⟩ := List.mem_map.mp mem
    exact spares va (inside page) (present va page)
  · cases call

/-- Where the heap begins 512 KiB behind the bitmap, no clear reaches it. -/
theorem far_region {s : Heap} {bitmapAt : Nat} (far : bitmapAt + 0x80000 ≤ s.vmm.heapStart)
    (word : s.vmm.heapStart < 2 ^ 32) (ptr : Nat) (pages : Int) :
    s.RegionSpares bitmapAt ptr pages := by
  intro va _ _ inside
  have low : s.vmm.freedIndex va < 2 ^ 20 := by
    unfold Vmm.freedIndex wsub
    have := wrap_lt (2 ^ 32 - s.vmm.pmm.placementaddr + (s.vmm.entryOf va).frame.toNat)
    omega
  rw [blocksPerBucket] at inside
  rw [wrap_eq (by omega)] at inside
  omega

theorem far_spares {s : Heap} {bitmapAt : Nat} (far : bitmapAt + 0x80000 ≤ s.vmm.heapStart)
    (word : s.vmm.heapStart < 2 ^ 32) (ptr : Nat) : s.FreeSpares bitmapAt ptr := by
  intro _ m tag pages back
  have vmm : m.vmm = ({ s with lock := 1 } : Heap).vmm := melted_vmm back.melted
  exact far_region (vmm ▸ far) (vmm ▸ word) tag pages

end RiseOS
