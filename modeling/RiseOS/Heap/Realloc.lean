import RiseOS.Heap.Contract
import RiseOS.Heap.Search

/-! realloc: a call that gets its block keeps the heap in order; a call that does
not has still copied to NULL and freed the old block. -/
namespace RiseOS
open Words Runs Links Tiling

/-! ### The copy -/

theorem copyWords_outside (count : Nat) (m : Memory × List Nat) (ldest lsrc a : Nat)
    (fits : ldest + 4 * count ≤ 2 ^ 32) (word : a < 2 ^ 32)
    (outside : a < ldest ∨ ldest + 4 * count ≤ a) :
    (copyWords count m ldest lsrc).1 a = m.1 a := by
  induction count generalizing m ldest lsrc with
  | zero => rfl
  | succ count ih =>
    rw [copyWords]
    by_cases last : count = 0
    · subst last
      rw [copyWords]
      refine store32_other _ _ _ _ ?_
      simp only [wsub, wrap]
      omega
    · have next : wrap (ldest + 4) = ldest + 4 := wrap_eq (by omega)
      rw [next, ih _ _ _ (by omega) (by omega)]
      refine store32_other _ _ _ _ ?_
      simp only [wsub, wrap]
      omega

theorem copyBytes_outside (count : Nat) (m : Memory × List Nat) (cdest csrc a : Nat)
    (fits : cdest + count ≤ 2 ^ 32) (outside : a < cdest ∨ cdest + count ≤ a) :
    (copyBytes count m cdest csrc).1 a = m.1 a := by
  induction count generalizing m cdest csrc with
  | zero => rfl
  | succ count ih =>
    rw [copyBytes]
    by_cases last : count = 0
    · subst last
      rw [copyBytes]
      exact Function.update_of_ne (by omega) _ _
    · have next : wrap (cdest + 1) = cdest + 1 := wrap_eq (by omega)
      rw [next, ih _ _ _ (by omega) (by omega)]
      exact Function.update_of_ne (by omega) _ _

theorem memcpy_outside (m : Memory) {s1 s2 n a : Nat} (fits : s1 + n < 2 ^ 32) (word : a < 2 ^ 32)
    (outside : a < s1 ∨ s1 + n ≤ a) : (liballocMemcpy m s1 s2 n).1 a = m a := by
  have middle : wrap (s1 + n / 4 * 4) = s1 + n / 4 * 4 := wrap_eq (by omega)
  unfold liballocMemcpy
  rw [middle, copyBytes_outside _ _ _ _ _ (by omega) (by omega),
    copyWords_outside _ _ _ _ _ (by omega) word (by omega)]

theorem copyWords_stores (count : Nat) (m : Memory × List Nat) (ldest lsrc a : Nat)
    (done : a ∈ m.2) : a ∈ (copyWords count m ldest lsrc).2 := by
  induction count generalizing m ldest lsrc with
  | zero => exact done
  | succ count ih => exact ih _ _ _ (List.mem_append_left _ done)

theorem copyBytes_stores (count : Nat) (m : Memory × List Nat) (cdest csrc a : Nat)
    (done : a ∈ m.2) : a ∈ (copyBytes count m cdest csrc).2 := by
  induction count generalizing m cdest csrc with
  | zero => exact done
  | succ count ih => exact ih _ _ _ (List.mem_append_left _ done)

theorem memcpy_stores (m : Memory) {s1 s2 n : Nat} (word : s1 < 2 ^ 32) (some_bytes : 0 < n) :
    s1 ∈ (liballocMemcpy m s1 s2 n).2 := by
  unfold liballocMemcpy
  by_cases short : n / 4 = 0
  · obtain ⟨count, more⟩ : ∃ count, n % 4 = count + 1 := ⟨n % 4 - 1, by omega⟩
    have start : wrap (s1 + n / 4 * 4) = s1 := by
      rw [short, Nat.zero_mul, Nat.add_zero]
      exact wrap_eq word
    rw [more, start, copyBytes]
    exact copyBytes_stores _ _ _ _ _ (by simp)
  · obtain ⟨count, more⟩ : ∃ count, n / 4 = count + 1 := ⟨n / 4 - 1, by omega⟩
    refine copyBytes_stores _ _ _ _ _ ?_
    rw [more, copyWords]
    exact copyWords_stores _ _ _ _ _ (by simp)

/-! ### Runs with realloc -/

/-- Nothing that malloc may hand out overlaps the block, and its chunk is out. -/
structure StillLive (s : Heap) (p : Nat) : Prop where
  apart : ∀ f, Listed s f → wsub p sizeofTag ∉ bytes f (s.get .realSize f)
  out : ∃ c ∈ outstanding s.vmm.calls, wsub p sizeofTag ∈ bytes c.1 (regionSize c.2)

/-- A tag that has gone into a list holds no live block. -/
theorem Blocks.listed_gone {s : Heap} {T F : Finset Nat} (h : Blocks s T F 0) {tag p : Nat}
    (mem : tag ∈ T) (loose : tag ∉ F) (size : Nat)
    (inside : wsub p sizeofTag ∈ bytes tag (s.get .realSize tag)) :
    ¬ StillLive (s.insertTag tag (bucket size)).liballocUnlock p := by
  rintro ⟨apart, _⟩
  have node : tag ≠ 0 := fun e => h.null (e ▸ mem)
  have bucketS := realIndex_bucket s tag size
  have valid := bucket_valid size
  have real := insertTag_get h.apart h.null s bucketS mem mem (h.head_tag valid)
    (h.loose tag mem loose).1 .realSize
  have heads := (insertTag_rest s tag (bucket size)).2
  rw [bucketS] at heads
  generalize s.insertTag tag (bucket size) = w at heads real apart
  have head : w.liballocUnlock.freePages (bucket size) = tag := by
    change w.freePages (bucket size) = tag
    rw [heads, Function.update_self]
  have member := Listed.head (s := w.liballocUnlock) (i := bucket size) valid (by rwa [head])
  rw [head] at member
  have overlap := apart tag member
  have same : w.liballocUnlock.get .realSize tag = s.get .realSize tag := real
  rw [same] at overlap
  exact overlap inside

/-- A chunk that has gone back holds no live block. -/
theorem Blocks.returned_gone {s : Heap} {T F : Finset Nat} (h : Blocks s T F 0) (limits : Limits s.vmm)
    {tag pages p : Nat} (back : GivesBack s T F tag tag pages) {v : Vmm} {r : Int}
    (asked : s.vmm.liballocFree tag pages = some (v, r))
    (inside : wsub p sizeofTag ∈ bytes tag (4096 * pages)) :
    ¬ StillLive ({ s with vmm := v } : Heap).liballocUnlock p := by
  rintro ⟨_, c, out, other⟩
  have below := (h.below _ back.chunk).1
  obtain ⟨v', r', asked', _, _, _, calls⟩ := liballocFree_drops s.vmm limits back.few below
  obtain ⟨rfl, _⟩ := Prod.mk.inj (Option.some.inj (asked.symm.trans asked'))
  have kept : (c.1, regionSize c.2) ∈ chunkSet v.calls := ⟨c.2, out, rfl⟩
  rw [calls] at kept
  have apart := h.tiled.chunks_apart _ kept.1 _ back.chunk (fun e => kept.2 (congrArg Prod.fst e))
  obtain ⟨above, under⟩ := other
  obtain ⟨low, high⟩ := inside
  dsimp only at apart
  omega

/-- After free the block belongs to a tag in a list, or its chunk has gone back. -/
theorem Ready.free_gone {s s' : Heap} {T F : Finset Nat} (h : Ready s T F)
    (started : s.initialized ≠ 0) {tag : Nat} (ht : tag ∈ T) (free : tag ∉ F)
    (call : s.free (32 + tag) = some s') : ¬ StillLive s' (32 + tag) := by
  obtain ⟨m, tag', T', F', _, opened, mem, loose, inv, same, _, low, high⟩ := h.melted started ht free
  have blocks := h.blocks
  rw [initialize_done started] at blocks
  have long := blocks.long ht
  have fits := blocks.fits ht
  have inside : wsub (32 + tag) sizeofTag ∈ bytes tag' (m.get .realSize tag') := by
    have header : wsub (32 + tag) sizeofTag = tag := by
      simp only [wsub, wrap, sizeofTag]
      omega
    rw [header]
    exact ⟨low, by omega⟩
  rw [opened] at call
  rw [putBack_apart] at call
  split at call
  · rename_i whole
    split at call
    · rename_i full
      obtain ⟨pages, least, size, back⟩ := inv.wholeChunk mem whole full
      have limits : Limits m.vmm := by
        rw [same.1]
        exact h.limits
      rw [size, neededPages_whole least] at call
      rw [size] at inside
      obtain ⟨⟨v, r⟩, asked, rfl⟩ := Option.map_eq_some_iff.mp call
      exact inv.returned_gone limits back asked inside
    · obtain rfl := Option.some.inj call
      have counted : ∀ index count, Blocks (m.setCompletePages index count) T' F' 0 := fun _ _ =>
        inv.congr (fun _ _ _ _ => rfl) (fun _ _ => rfl) rfl rfl
      exact (counted _ _).listed_gone mem loose _ inside
  · obtain rfl := Option.some.inj call
    exact inv.listed_gone mem loose _ inside

inductive UserOp where
  | client (op : ClientOp)
  | realloc (p size : Nat)

/-- A realloc that returns a block has taken the old one, as has a size of 0. -/
def userStep (s : Client) : UserOp → Option Client
  | .client op => pagedStep s op
  | .realloc p size => (s.heap.realloc p size .aliased).map fun r =>
      ⟨r.1, if r.2.1 = 0 then
          (if size = 0 then s.live.filter (fun b => b.1 ≠ p) else s.live)
        else (r.2.1, size) :: s.live.filter (fun b => b.1 ≠ p)⟩

/-- The free at the end of realloc clears no set bit of the heap. -/
def Heap.ReallocSpares (s : Heap) (bitmapAt p size : Nat) : Prop :=
  (size = 0 → s.FreeSpares bitmapAt p) ∧
    (size ≠ 0 → p ≠ 0 → (s.malloc size .aliased).all (fun r =>
      let copied := liballocMemcpy r.1.mem r.2 p (min size (s.get .size (wsub p sizeofTag)))
      Heap.FreeSpares { r.1 with mem := copied.1 } bitmapAt p) = true)

instance (s : Heap) (bitmapAt p size : Nat) : Decidable (s.ReallocSpares bitmapAt p size) :=
  inferInstanceAs (Decidable ((_ → _) ∧ (_ → _ → _ = true)))

/-- realloc of NULL or a live pointer, for a size that fits and that malloc has. No call
needs a new page table, and all clears spare the heap. -/
def UserAllowed (bitmapAt : Nat) (s : Client) : UserOp → Prop
  | .client op => FitAllowed bitmapAt s op
  | .realloc p size => (p = 0 ∨ p ∈ s.live.map Prod.fst) ∧ size < 2 ^ 32 ∧ SizeFits s (.malloc size) ∧
      (p = 0 ∨ size = 0 ∨ (s.heap.malloc size .aliased).any (fun r => r.2 ≠ 0)) ∧
      (size = 0 ∨ s.heap.NeedsNoTable size) ∧ s.heap.ReallocSpares bitmapAt p size

instance (bitmapAt : Nat) : ∀ s op, Decidable (UserAllowed bitmapAt s op)
  | s, .client op => inferInstanceAs (Decidable (FitAllowed bitmapAt s op))
  | s, .realloc p size => inferInstanceAs (Decidable (
      (p = 0 ∨ p ∈ s.live.map Prod.fst) ∧ size < 2 ^ 32 ∧ SizeFits s (.malloc size) ∧
        (p = 0 ∨ size = 0 ∨ (s.heap.malloc size .aliased).any (fun r => r.2 ≠ 0)) ∧
        (size = 0 ∨ s.heap.NeedsNoTable size) ∧ s.heap.ReallocSpares bitmapAt p size))

structure UserInv (s : Client) : Prop where
  heap : ∃ T F, HeapInv s T F
  window : Window s.heap.vmm
  below : s.heap.vmm.TablesBelow

theorem UserInv.client {s : Client} (inv : UserInv s) (op : ClientOp)
    (allowed : WordAllowed s op ∧ SizeFits s op) (quiet : NoNewTable s op) :
    ∃ s', clientStep s op = some s' ∧ UserInv s' := by
  obtain ⟨⟨T, F, heap⟩, window, below⟩ := inv
  have served := SizeFits.served window allowed.1 allowed.2
  obtain ⟨s', step, heap'⟩ := heap.step op served
  exact ⟨s', step, heap', heap.keeps_window served window step, below.step quiet step⟩

theorem realloc_eq {s : Heap} (unlocked : s.lock = 0) {p size : Nat} (node : p ≠ 0)
    (some_bytes : size ≠ 0) : s.realloc p size = (s.malloc size).bind fun r =>
      ({ r.1 with mem := (liballocMemcpy r.1.mem r.2 p (min size (s.get .size (wsub p sizeofTag)))).1 }.free
        p).map fun h =>
          (h, r.2, (liballocMemcpy r.1.mem r.2 p (min size (s.get .size (wsub p sizeofTag)))).2) := by
  have locked : s.liballocLock = some { s with lock := 1 } := if_pos unlocked
  have back : ({ s with lock := 1 } : Heap).liballocUnlock = s := by
    obtain ⟨_, _, _, _, _, _⟩ := s
    cases unlocked
    rfl
  have same : ({ s with lock := 1 } : Heap).get .size (wsub p sizeofTag) =
      s.get .size (wsub p sizeofTag) := rfl
  have least : (if s.get .size (wsub p sizeofTag) > size then size
      else s.get .size (wsub p sizeofTag)) = min size (s.get .size (wsub p sizeofTag)) := by
    split <;> omega
  unfold Heap.realloc
  rw [if_neg some_bytes, if_neg node, locked, Option.bind_some]
  dsimp only
  rw [back, same, least]

/-- A realloc that gets its block: malloc, writes inside the block, and free. -/
theorem UserInv.realloc {s : Client} (inv : UserInv s) {p size : Nat}
    (live : p ∈ s.live.map Prod.fst) (some_bytes : size ≠ 0)
    (allowed : WordAllowed s (.malloc size) ∧ SizeFits s (.malloc size))
    (quiet : s.heap.NeedsNoTable size)
    (gets : (s.heap.malloc size .aliased).any (fun r => r.2 ≠ 0)) :
    ∃ s', userStep s (.realloc p size) = some s' ∧ UserInv s' := by
  rw [malloc_aliased inv.below quiet] at gets
  obtain ⟨⟨heap, q⟩, call, found⟩ := Option.any_eq_true _ _ |>.mp gets
  have node : q ≠ 0 := of_decide_eq_true found
  obtain ⟨T, F, start⟩ := inv.heap
  obtain ⟨b, mem, rfl⟩ := List.mem_map.mp live
  have old : b.1 ≠ 0 := (start.inUse b mem).nonnull
  obtain ⟨s₁, step, ⟨T₁, F₁, grown⟩, window, below⟩ := inv.client _ allowed quiet
  have made : s₁ = ⟨heap, (q, size) :: s.live⟩ := by
    unfold clientStep at step
    dsimp only at step
    rw [call, Option.map_some] at step
    rw [← Option.some.inj step]
    dsimp only
    rw [if_neg node]
  subst made
  have new : (q, size) ∈ (q, size) :: s.live := List.mem_cons_self
  have fits : q + size < 2 ^ 32 := by
    obtain ⟨t, memT, _, pointer, _, real⟩ := grown.inUse _ new
    have := (grown.blocks (grown.started new)).fits memT
    omega
  have least : min size (s.heap.get .size (wsub b.1 sizeofTag)) ≤ size := Nat.min_le_left _ _
  generalize count : min size (s.heap.get .size (wsub b.1 sizeofTag)) = n at least
  have copied := grown.writes new (m := (liballocMemcpy heap.mem q b.1 n).1)
    (fun a word outside => memcpy_outside _ (by omega) word (by dsimp only at outside; omega))
  have copiedInv : UserInv ⟨{ heap with mem := (liballocMemcpy heap.mem q b.1 n).1 },
    (q, size) :: s.live⟩ := ⟨⟨T₁, F₁, copied⟩, window, below⟩
  obtain ⟨s₂, freed, inv₂⟩ := copiedInv.client (.free b.1)
    ⟨.inr (by simp [live]), trivial⟩ trivial
  obtain ⟨last, gone, rfl⟩ := Option.map_eq_some_iff.mp freed
  refine ⟨_, ?_, inv₂⟩
  have other : q ≠ b.1 := by
    have distinct := grown.distinct
    rw [List.map_cons, List.nodup_cons] at distinct
    exact fun e => distinct.1 (by rw [e]; exact live)
  unfold userStep
  dsimp only
  rw [realloc_aliased inv.below (fun _ => quiet), realloc_eq start.ready.lock old some_bytes, call,
    Option.bind_some]
  dsimp only
  rw [count, gone, Option.map_some, Option.map_some, if_neg node, List.filter_cons,
    if_pos (decide_eq_true other)]

theorem UserInv.step {bitmapAt : Nat} {s : Client} (inv : UserInv s) (op : UserOp)
    (allowed : UserAllowed bitmapAt s op) : ∃ s', userStep s op = some s' ∧ UserInv s' := by
  cases op with
  | client op =>
    obtain ⟨s', step, inv'⟩ := inv.client op allowed.1.1 allowed.2
    exact ⟨s', (pagedStep_eq inv.below allowed.2).trans step, inv'⟩
  | realloc p size =>
    obtain ⟨ptr, word, fits, enough, tabled, _⟩ := allowed
    have spared := realloc_aliased (p := p) inv.below fun some_bytes => tabled.resolve_left some_bytes
    by_cases none : size = 0
    · obtain ⟨s', step, inv'⟩ := inv.client (.free p) ⟨ptr, trivial⟩ trivial
      obtain ⟨heap, call, rfl⟩ := Option.map_eq_some_iff.mp step
      have early : s.heap.realloc p size = some (heap, 0, []) := by
        rw [Heap.realloc, if_pos none, call]
        rfl
      refine ⟨_, ?_, inv'⟩
      unfold userStep
      dsimp only
      rw [spared, early, Option.map_some]
      dsimp only
      rw [if_pos rfl, if_pos none]
    · have quiet := tabled.resolve_left none
      by_cases null : p = 0
      · obtain ⟨s', step, inv'⟩ := inv.client (.malloc size) ⟨word, fits⟩ quiet
        obtain ⟨⟨heap, q⟩, call, rfl⟩ := Option.map_eq_some_iff.mp step
        have all : s.live.filter (fun b => b.1 ≠ p) = s.live := by
          obtain ⟨T, F, start⟩ := inv.heap
          refine List.filter_eq_self.mpr fun b mem => ?_
          rw [null]
          exact decide_eq_true (start.inUse b mem).nonnull
        have early : s.heap.realloc p size = some (heap, q, []) := by
          rw [Heap.realloc, if_neg none, if_pos null, call]
          rfl
        refine ⟨_, ?_, inv'⟩
        unfold userStep
        dsimp only
        rw [spared, early, Option.map_some]
        dsimp only
        rw [if_neg none, all]
      · exact inv.realloc (ptr.resolve_left null) none ⟨word, fits⟩ quiet
          ((enough.resolve_left null).resolve_left none)

/-! ### A realloc that does not get its block -/

/-- The block is still the caller's with its size and contents, and nothing but
headers of the heap has been stored to. -/
structure KeepsData (s : Client) (b : Nat × Nat) (heap : Heap) (stores : List Nat) : Prop where
  live : StillLive heap b.1
  size : heap.get .size (wsub b.1 sizeofTag) = b.2
  contents : ∀ a ∈ bytes b.1 b.2, heap.mem a = s.heap.mem a
  quiet : ∀ a ∈ stores, ∃ t, IsTag s t ∧ a ∈ bytes t sizeofTag

section Refused

variable {s : Client} {T F : Finset Nat} (h : HeapInv s T F) {size : Nat}
  (none : s.heap.entered.Exhausted size)
include h none

theorem HeapInv.exhausted : ∃ heap, s.heap.malloc size = some (heap, 0) ∧
    ∃ T' F', HeapInv ⟨heap, s.live⟩ T' F' := by
  obtain ⟨blocks, limits, _, _⟩ := h.ready.entered
  obtain ⟨u, asked, _⟩ := blocks.allocateNewTag_refused limits none.refused
  have call : s.heap.malloc size = some (u.liballocUnlock, 0) := by
    rw [malloc_entered h.ready.lock, none.none, Option.bind_some, Heap.obtainTag, if_pos rfl, asked]
    rfl
  obtain ⟨s', step, T', F', inv⟩ := h.malloc (.inr none)
  refine ⟨u.liballocUnlock, call, T', F', ?_⟩
  unfold clientStep at step
  dsimp only at step
  rw [call, Option.map_some] at step
  rw [← Option.some.inj step] at inv
  exact inv

theorem HeapInv.realloc_loses {b : Nat × Nat} (live : b ∈ s.live) (positive : 0 < size) :
    ¬ ∃ heap stores, s.heap.realloc b.1 size = some (heap, 0, stores) ∧
      KeepsData s b heap stores := by
  rintro ⟨heap, stores, call, keeps⟩
  obtain ⟨r, refused, T', F', inv⟩ := h.exhausted none
  obtain ⟨tag, mem, _, pointer, size', _⟩ := h.inUse b live
  have fits := (h.blocks (h.started live)).fits mem
  have header : wsub b.1 sizeofTag = tag := by
    simp only [wsub, wrap, sizeofTag]
    omega
  rw [realloc_eq h.ready.lock (h.inUse b live).nonnull (by omega), refused, Option.bind_some, header,
    size'] at call
  dsimp only at call
  obtain ⟨heap', freed, result⟩ := Option.map_eq_some_iff.mp call
  cases result
  by_cases empty : b.2 = 0
  · -- nothing is copied, but the block goes
    rw [empty, Nat.min_zero] at freed
    have use := inv.inUse b live
    obtain ⟨t, memT, freeT, here, _⟩ := use
    rw [here] at freed
    have gone := inv.ready.free_gone (inv.started live) memT freeT freed
    rw [← here] at gone
    exact gone keeps.live
  · have stored : 0 ∈ (liballocMemcpy r.mem 0 b.1 (min size b.2)).2 :=
      memcpy_stores r.mem (by decide) (by omega)
    obtain ⟨t, isTag, low, _⟩ := keeps.quiet 0 stored
    have known := h.tag_mem (h.started live) isTag
    obtain rfl : t = 0 := by omega
    exact (h.blocks (h.started live)).null known

end Refused

/-- In no state that is reached without a new page table, and by clears that spare the heap,
does a realloc of a live block keep it when the heap is exhausted. -/
theorem realloc_loses_data (bitmapAt : Nat) (h : Heap) (start : h.BootedPaged) (ops : List UserOp)
    (permitted : Permitted userStep (UserAllowed bitmapAt) ⟨h, []⟩ ops) :
    Always userStep (fun s => ∀ b ∈ s.live, ∀ size, 0 < size → s.heap.entered.Exhausted size →
      ¬ ∃ heap stores, s.heap.realloc b.1 size .aliased = some (heap, 0, stores) ∧
        KeepsData s b heap stores) ⟨h, []⟩ ops := by
  have always := always_invariant userStep (UserAllowed bitmapAt) UserInv ?_ ⟨h, []⟩ ops
    ⟨⟨∅, ∅, booted_inv start.toBooted⟩, start.window, start.below⟩ permitted
  · intro done before s reached b live size positive none
    have inv := always done before s reached
    obtain ⟨T, F, heap⟩ := inv.heap
    rw [realloc_aliased inv.below fun _ _ => .inl (entered_vmm s.heap ▸ none.refused)]
    exact heap.realloc_loses none live positive
  · intro s op s' inv allowed result
    obtain ⟨t, same, inv'⟩ := inv.step op allowed
    rw [result] at same
    exact Option.some.inj same ▸ inv'

/-- realloc of 100 bytes to more than the heap copies them to NULL and frees the block. -/
theorem growing_stores_at_null :
    ∃ s, run userStep ⟨heapAt3M, []⟩ [.client (.malloc 100)] = some s ∧
      (0x303420, 100) ∈ s.live ∧ s.heap.entered.Exhausted 0x500000 ∧
      ∃ heap stores, s.heap.realloc 0x303420 0x500000 .aliased = some (heap, 0, stores) ∧ 0 ∈ stores ∧
        ¬ KeepsData s (0x303420, 100) heap stores := by
  have reached : (run userStep ⟨heapAt3M, []⟩ [.client (.malloc 100)]).any (fun s =>
      (0x303420, 100) ∈ s.live ∧
      s.heap.entered.search 0x500000 loopFuel (s.heap.entered.freePages (bucket 0x500000)) = some 0 ∧
      s.heap.entered.vmm.refuses (neededPages (wrap (sizeofTag + 0x500000))) ∧
      (s.heap.realloc 0x303420 0x500000 .aliased).any (fun r => r.2.1 = 0 ∧ 0 ∈ r.2.2 ∧
        r.1.freePages 15 = 0x303400 ∧ r.1.get .realSize 0x303400 = 0x10000)) = true := by
    decide +kernel
  obtain ⟨s, ran, found⟩ := Option.any_eq_true _ _ |>.mp reached
  obtain ⟨live, searched, refused, called⟩ := of_decide_eq_true found
  obtain ⟨⟨heap, q, stores⟩, call, state⟩ := Option.any_eq_true _ _ |>.mp called
  obtain ⟨null, stored, head, real⟩ := of_decide_eq_true state
  dsimp only at null stored head real
  subst null
  refine ⟨s, ran, live, ⟨searched, refused⟩, heap, stores, call, stored, fun keeps => ?_⟩
  have listed := Listed.head (s := heap) (i := 15) (by decide) (by rw [head]; decide)
  rw [head] at listed
  have apart := keeps.live.apart _ listed
  rw [real] at apart
  exact apart ⟨by decide, by decide⟩

theorem grown_block_lost : ∃ s, run userStep ⟨heapAt3M, []⟩ [.client (.malloc 100)] = some s ∧
    ¬ ∃ heap stores, s.heap.realloc 0x303420 0x500000 .aliased = some (heap, 0, stores) ∧
      KeepsData s (0x303420, 100) heap stores := by
  have reached : (run userStep ⟨heapAt3M, []⟩ [.client (.malloc 100)]).any (fun s =>
      (0x303420, 100) ∈ s.live ∧
      s.heap.entered.search 0x500000 loopFuel (s.heap.entered.freePages (bucket 0x500000)) = some 0 ∧
      s.heap.entered.vmm.refuses (neededPages (wrap (sizeofTag + 0x500000)))) = true := by
    decide +kernel
  obtain ⟨s, ran, found⟩ := Option.any_eq_true _ _ |>.mp reached
  obtain ⟨live, searched, refused⟩ := of_decide_eq_true found
  exact ⟨s, ran, realloc_loses_data bitmapAt3M heapAt3M heapAt3M_paged [.client (.malloc 100)]
    (by decide +kernel) _ (List.prefix_refl _) s ran (0x303420, 100) live 0x500000 (by decide)
    ⟨searched, refused⟩⟩

end RiseOS
