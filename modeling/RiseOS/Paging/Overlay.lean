import RiseOS.Kernel.Liballoc
import RiseOS.Paging.Effects

/-! The hooks while the page tables lie below the heap: they neither read nor change an
entry that is bytes of the heap, and the two views of the hooks agree. -/
namespace RiseOS
open Words

/-- The page tables that there are lie below the heap. -/
structure Vmm.TablesBelow (s : Vmm) : Prop where
  start : s.heapStart < 2 ^ 32
  cur : s.heapCur < 2 ^ 32
  tables : ∀ i, s.dir.tables i ≠ 0 → s.dir.tables i + sizeofPageTable ≤ s.heapStart

/-- liballoc_alloc(pages) refuses, or every page of its region has its page table already. -/
def Vmm.NeedsNoTable (s : Vmm) (pages : Int) : Prop :=
  s.refuses pages ∨ ∀ va ∈ regionPages s.heapCur (wrap (s.heapCur + regionSize pages)),
    s.dir.tables (pagedirIndex va) ≠ 0

instance (s : Vmm) (pages : Int) : Decidable (s.NeedsNoTable pages) :=
  inferInstanceAs (Decidable (_ ∨ _))

/-- `s` with the entries of `e` from heap_start on. -/
def Vmm.overlay (s : Vmm) (e : Nat → Page) : Vmm :=
  { s with entries := fun a => if s.Aliases a then e a else s.entries a }

theorem Vmm.TablesBelow.congr {s t : Vmm} (h : s.TablesBelow) (dir : t.dir = s.dir)
    (start : t.heapStart = s.heapStart) (cur : t.heapCur < 2 ^ 32) : t.TablesBelow :=
  ⟨start ▸ h.start, cur, by rw [dir, start]; exact h.tables⟩

theorem overlay_self (s : Vmm) : s.overlay s.entries = s := by
  unfold Vmm.overlay
  simp only [ite_self]

section Entry

variable {s : Vmm} {table i : Nat} (apart : ¬ s.Aliases (pageAddress table i)) (e : Nat → Page)
include apart

theorem overlay_page : (s.overlay e).page table i = s.page table i := if_neg apart

theorem overlay_setPage (p : Page) :
    (s.overlay e).setPage table i p = (s.setPage table i p).overlay e := by
  have entries : Function.update (s.overlay e).entries (pageAddress table i) p =
      fun a => if s.Aliases a then e a else Function.update s.entries (pageAddress table i) p a := by
    funext a
    by_cases here : a = pageAddress table i
    · rw [here, Function.update_self, if_neg apart, Function.update_self]
    · rw [Function.update_of_ne here, Function.update_of_ne here]
      rfl
  unfold Vmm.setPage
  rw [entries]
  rfl

theorem overlay_mapPage : (s.overlay e).mapPage table i = (s.mapPage table i).overlay e := by
  let t : Vmm := { s with pmm := s.pmm.kallocPageFrame.1 }.log (.frame s.pmm.kallocPageFrame.2)
  have set : ∀ p, (t.overlay e).setPage table i p = (t.setPage table i p).overlay e :=
    fun p => overlay_setPage (s := t) apart e p
  have page : (t.overlay e).page table i = t.page table i := overlay_page (s := t) apart e
  have left : (s.overlay e).mapPage table i =
      ((t.overlay e).setPage table i (mappedEntry ((t.overlay e).page table i)
        s.pmm.kallocPageFrame.2)).log (.mapped (pageAddress table i) s.pmm.kallocPageFrame.2) := rfl
  rw [left, page, set]
  rfl

end Entry

section Page

variable {s : Vmm} (below : s.TablesBelow) (va : Nat) (e : Nat → Page)
include below

/-- The entry of an address whose slot has a table is no byte of the heap. -/
theorem Vmm.TablesBelow.entry_apart (tabled : s.dir.tables (pagedirIndex va) ≠ 0) :
    ¬ s.Aliases (pageAddress (s.dir.tables (pagedirIndex va)) (pagetblIndex va)) := by
  have start := below.start
  have inside := below.tables _ tabled
  have size : sizeofPageTable = 4096 := rfl
  have index : pagetblIndex va < 1024 := by
    rw [pagetblIndex_eq]
    omega
  have small : s.dir.tables (pagedirIndex va) + 4 * pagetblIndex va < 2 ^ 32 := by omega
  rintro ⟨above, _⟩
  rw [pageAddress, wrap_eq small] at above
  omega

theorem overlay_entryOf (tabled : s.dir.tables (pagedirIndex va) ≠ 0) :
    (s.overlay e).entryOf va = s.entryOf va := overlay_page (below.entry_apart va tabled) e

theorem overlay_allocatePage (tabled : s.dir.tables (pagedirIndex va) ≠ 0) :
    (s.overlay e).allocatePage va = (s.allocatePage va).overlay e ∧
      (s.allocatePage va).dir = s.dir := by
  have own : s.withTable (pagedirIndex va) = s := if_neg tabled
  have other : (s.overlay e).withTable (pagedirIndex va) = s.overlay e := if_neg tabled
  have dir : (s.overlay e).dir = s.dir := rfl
  have apart := below.entry_apart va tabled
  unfold Vmm.allocatePage
  dsimp only
  rw [own, other, dir, overlay_page apart]
  split
  · exact ⟨overlay_mapPage apart e, rfl⟩
  · exact ⟨rfl, rfl⟩

theorem overlay_freePage : (s.overlay e).freePage va = (s.freePage va).overlay e := by
  have dir : (s.overlay e).dir = s.dir := rfl
  unfold Vmm.freePage
  dsimp only
  rw [dir]
  by_cases none : s.dir.tables (pagedirIndex va) = 0
  · rw [if_pos none, if_pos none]
    rfl
  · have apart := below.entry_apart va none
    let frame := (s.page (s.dir.tables (pagedirIndex va)) (pagetblIndex va)).frame.toNat
    let t : Vmm := { s with pmm := s.pmm.kfreePageFrame frame }
    have page := overlay_page (s := t) apart e
    have set := overlay_setPage (s := t) apart e
    rw [if_neg none, if_neg none, overlay_page apart]
    split
    · rfl
    · refine Eq.trans ?_ (set { t.page (s.dir.tables (pagedirIndex va)) (pagetblIndex va) with
        present := false, writeable := false })
      rw [← page]
      rfl

theorem Vmm.TablesBelow.freePage : (s.freePage va).TablesBelow := by
  obtain ⟨start, _, cur, _⟩ := freePage_heap s va
  exact below.congr (freePage_tables s va) start (cur ▸ below.cur)

end Page

theorem overlay_allocatePages (vas : List Nat) {s : Vmm} (below : s.TablesBelow) (e : Nat → Page)
    (tabled : ∀ va ∈ vas, s.dir.tables (pagedirIndex va) ≠ 0) :
    vas.foldl Vmm.allocatePage (s.overlay e) = (vas.foldl Vmm.allocatePage s).overlay e ∧
      (vas.foldl Vmm.allocatePage s).dir = s.dir := by
  induction vas generalizing s with
  | nil => exact ⟨rfl, rfl⟩
  | cons va rest ih =>
    obtain ⟨first, dir⟩ := overlay_allocatePage below va e (tabled va List.mem_cons_self)
    obtain ⟨start, _, cur, _⟩ := allocatePage_heap s va
    have later : ∀ v ∈ rest, (s.allocatePage va).dir.tables (pagedirIndex v) ≠ 0 := by
      rw [dir]
      exact fun v inside => tabled v (List.mem_cons_of_mem _ inside)
    obtain ⟨more, same⟩ := ih (below.congr dir start (cur ▸ below.cur)) later
    rw [List.foldl_cons, List.foldl_cons, first]
    exact ⟨more, same.trans dir⟩

theorem overlay_freeLoop {fuel start stop : Nat} {s : Vmm} (below : s.TablesBelow) (e : Nat → Page) :
    regionLoop Vmm.freePage fuel start stop (s.overlay e) =
      (regionLoop Vmm.freePage fuel start stop s).map (·.overlay e) := by
  induction fuel generalizing start s with
  | zero => rfl
  | succ fuel ih =>
    unfold regionLoop
    split
    · rw [overlay_freePage below, ih (below.freePage start)]
    · rfl

theorem freeLoop_below {fuel start stop : Nat} {s t : Vmm} (below : s.TablesBelow)
    (loop : regionLoop Vmm.freePage fuel start stop s = some t) :
    t.TablesBelow ∧ t.heapStart = s.heapStart := by
  induction fuel generalizing start s with
  | zero => cases loop
  | succ fuel ih =>
    unfold regionLoop at loop
    split at loop
    · obtain ⟨kept, same⟩ := ih (below.freePage start) loop
      exact ⟨kept, same.trans (freePage_heap s start).1⟩
    · obtain rfl := Option.some.inj loop
      exact ⟨below, rfl⟩

section Calls

variable {s : Vmm} (below : s.TablesBelow) (pages : Int)
include below

theorem overlay_liballocAlloc (quiet : s.NeedsNoTable pages) (e : Nat → Page) :
    (s.overlay e).liballocAlloc pages =
      (s.liballocAlloc pages).map fun r => (r.1.overlay e, r.2) := by
  have cur : (s.overlay e).heapCur = s.heapCur := rfl
  have refuses : (s.overlay e).refuses pages ↔ s.refuses pages := Iff.rfl
  rw [liballocAlloc_eq s pages below.cur, liballocAlloc_eq (s.overlay e) pages below.cur]
  by_cases refused : s.refuses pages
  · rw [if_pos (refuses.mpr refused), if_pos refused]
    rfl
  · rw [if_neg (fun h => refused (refuses.mp h)), if_neg refused, cur]
    obtain ⟨same, _⟩ := overlay_allocatePages _ below e (quiet.resolve_left refused)
    split
    · rw [same]
      rfl
    · rfl

theorem Vmm.TablesBelow.liballocAlloc (quiet : s.NeedsNoTable pages) {t : Vmm} {r : Nat}
    (call : s.liballocAlloc pages = some (t, r)) :
    t.TablesBelow ∧ t.heapStart = s.heapStart := by
  rw [liballocAlloc_eq s pages below.cur] at call
  by_cases refused : s.refuses pages
  · rw [if_pos refused] at call
    obtain ⟨rfl, _⟩ := Prod.mk.inj (Option.some.inj call)
    exact ⟨below.congr rfl rfl below.cur, rfl⟩
  · rw [if_neg refused] at call
    obtain ⟨_, dir⟩ := overlay_allocatePages _ below s.entries (quiet.resolve_left refused)
    have heap := foldl_heap Vmm.allocatePage allocatePage_heap
      (regionPages s.heapCur (wrap (s.heapCur + regionSize pages))) s
    split at call
    · obtain ⟨rfl, _⟩ := Prod.mk.inj (Option.some.inj call)
      exact ⟨below.congr dir heap.1 (wrap_lt _), heap.1⟩
    · cases call

variable (ptr : Nat)

theorem overlay_liballocFree (e : Nat → Page) : (s.overlay e).liballocFree ptr pages =
    (s.liballocFree ptr pages).map fun r => (r.1.overlay e, r.2) := by
  unfold Vmm.liballocFree Vmm.freeRegion
  dsimp only
  rw [overlay_freeLoop below, Option.map_map, Option.map_map]
  rfl

theorem Vmm.TablesBelow.liballocFree {t : Vmm} {r : Int}
    (call : s.liballocFree ptr pages = some (t, r)) :
    t.TablesBelow ∧ t.heapStart = s.heapStart := by
  obtain ⟨u, freed, same⟩ := Option.map_eq_some_iff.mp call
  obtain ⟨rfl, _⟩ := Prod.mk.inj same
  obtain ⟨kept, start⟩ := freeLoop_below below freed
  exact ⟨kept.congr rfl rfl kept.cur, start⟩

end Calls

/-! ### The two views of the hooks -/

theorem paging_eq (s : Heap) :
    s.paging = s.vmm.overlay fun a => Page.ofWord (load32 s.mem a) := rfl

/-- A page entry that is read from the heap and left alone is the same bytes again. -/
theorem withPaging_overlay (s : Heap) {v : Vmm} (start : v.heapStart = s.vmm.heapStart) :
    s.withPaging (v.overlay fun a => Page.ofWord (load32 s.mem a)) =
      { s with vmm := v.overlay s.vmm.entries } := by
  have same : ∀ a, v.Aliases a ↔ s.vmm.Aliases a := by
    intro a
    unfold Vmm.Aliases
    rw [start]
  have bytes : ∀ a, s.vmm.Aliases a →
      BitVec.ofNat 8 ((Page.ofWord (load32 s.mem (a / 4 * 4))).word / 256 ^ (a % 4)) = s.mem a := by
    rintro a ⟨_, word⟩
    rw [Page.word_ofWord (load32_lt _ _), byte_load32 _ _ (Nat.mod_lt _ (by decide)),
      show a / 4 * 4 + a % 4 = a by omega, wrap_eq word]
  have cell : ∀ a, s.vmm.Aliases a → v.Aliases (a / 4 * 4) := by
    rintro a ⟨above, word⟩
    refine (same _).mpr ⟨?_, by omega⟩
    rwa [show a / 4 * 4 / 4 * 4 = a / 4 * 4 by omega]
  unfold Heap.withPaging
  congr 1
  · funext a
    by_cases inside : s.vmm.Aliases a
    · rw [if_pos inside, Vmm.overlay]
      dsimp only
      rw [if_pos (cell a inside), bytes a inside]
    · rw [if_neg inside]
  · unfold Vmm.overlay
    congr 1
    funext a
    by_cases inside : s.vmm.Aliases a
    · rw [if_pos inside, if_pos ((same a).mpr inside)]
    · rw [if_neg inside, if_neg (fun h => inside ((same a).mp h))]
      exact if_neg (fun h => inside ((same a).mp h))

section Hooks

variable {s : Heap} (below : s.vmm.TablesBelow) (pages : Int)
include below

theorem aliased_alloc (quiet : s.vmm.NeedsNoTable pages) :
    PageHooks.aliased.alloc s pages = PageHooks.apart.alloc s pages := by
  have kept := overlay_liballocAlloc below pages quiet s.vmm.entries
  rw [overlay_self] at kept
  unfold PageHooks.aliased PageHooks.apart
  dsimp only
  rw [paging_eq, overlay_liballocAlloc below pages quiet, Option.map_map]
  refine Option.map_congr fun r call => ?_
  rw [call] at kept
  have same : r.1.overlay s.vmm.entries = r.1 := congrArg Prod.fst (Option.some.inj kept.symm)
  have start := (below.liballocAlloc pages quiet call).2
  rw [Function.comp_apply, withPaging_overlay s start, same]

theorem aliased_free (ptr : Nat) :
    PageHooks.aliased.free s ptr pages = PageHooks.apart.free s ptr pages := by
  have kept := overlay_liballocFree below pages ptr s.vmm.entries
  rw [overlay_self] at kept
  unfold PageHooks.aliased PageHooks.apart
  dsimp only
  rw [paging_eq, overlay_liballocFree below pages, Option.map_map]
  refine Option.map_congr fun r call => ?_
  rw [call] at kept
  have same : r.1.overlay s.vmm.entries = r.1 := congrArg Prod.fst (Option.some.inj kept.symm)
  have start := (below.liballocFree pages ptr call).2
  rw [Function.comp_apply, withPaging_overlay s start, same]

end Hooks

end RiseOS
