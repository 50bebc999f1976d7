import RiseOS.Library.Runs
import RiseOS.Paging.Walk
import RiseOS.Kernel.Rise

/-! What one page operation changes, and the region loops as folds over the
pages of the region. -/
namespace RiseOS
open Words

section TableCreation

variable (s : Vmm) (i : Nat)

def Vmm.newTable (s : Vmm) : Nat := (s.pmm.dumballoc sizeofPageTable).2

theorem createTable_pmm : (s.createTable i).pmm = (s.pmm.dumballoc sizeofPageTable).1 := rfl

theorem createTable_tables :
    (s.createTable i).dir.tables = Function.update s.dir.tables i s.newTable := rfl

theorem createTable_kernelDir : (s.createTable i).kernelDir = s.kernelDir := rfl

theorem createTable_own : (s.createTable i).dir.tables i = s.newTable := by
  rw [createTable_tables, Function.update_self]

theorem createTable_other (j : Nat) (other : j ≠ i) :
    (s.createTable i).dir.tables j = s.dir.tables j := by
  rw [createTable_tables, Function.update_of_ne other]

theorem createTable_slot (j : Nat) :
    j = i ∧ (s.createTable i).dir.tables j = s.newTable ∨
      j ≠ i ∧ (s.createTable i).dir.tables j = s.dir.tables j := by
  by_cases new : j = i
  · left
    exact ⟨new, new ▸ createTable_own s j⟩
  · right
    exact ⟨new, createTable_other s i j new⟩

theorem createTable_physical : (s.createTable i).dir.tablesPhysical =
    Function.update s.dir.tablesPhysical i (tableEntry (s.dir.tablesPhysical i) s.newTable) := rfl

theorem createTable_entries : (s.createTable i).entries =
    fun a => if wsub a s.newTable < 1024 * sizeofPageTable then Page.zero else s.entries a := rfl

theorem createTable_trace : (s.createTable i).trace = s.trace ++
    [Event.newTable s.newTable, .cleared s.newTable (1024 * sizeofPageTable),
     .store (wrap (s.kernelDir + 4096 + 4 * i)), .store (wrap (s.kernelDir + 4 * i))] := by
  simp [Vmm.createTable, Vmm.setTable, Vmm.setPhysical, Vmm.memsetZero, Vmm.dumballocTable, Vmm.log,
    Vmm.newTable, sizeofPageTable]

end TableCreation

section Mapping

variable (s : Vmm) (table i : Nat)

theorem mapPage_pmm : (s.mapPage table i).pmm = s.pmm.kallocPageFrame.1 := rfl

theorem mapPage_dir : (s.mapPage table i).dir = s.dir := rfl

theorem mapPage_kernelDir : (s.mapPage table i).kernelDir = s.kernelDir := rfl

theorem mapPage_entries : (s.mapPage table i).entries =
    Function.update s.entries (pageAddress table i)
      (mappedEntry (s.page table i) s.pmm.kallocPageFrame.2) := rfl

theorem mapPage_trace : (s.mapPage table i).trace = s.trace ++
    [Event.frame s.pmm.kallocPageFrame.2, .store (pageAddress table i),
     .mapped (pageAddress table i) s.pmm.kallocPageFrame.2] := by
  simp [Vmm.mapPage, Vmm.setPage, Vmm.log]

end Mapping

theorem allocatePage_eq (s : Vmm) (vaddr : Nat) :
    s.allocatePage vaddr =
      if ((s.withTable (pagedirIndex vaddr)).entryOf vaddr).present then
        s.withTable (pagedirIndex vaddr)
      else (s.withTable (pagedirIndex vaddr)).mapPage
        ((s.withTable (pagedirIndex vaddr)).dir.tables (pagedirIndex vaddr)) (pagetblIndex vaddr) := by
  unfold Vmm.allocatePage Vmm.entryOf
  dsimp only
  generalize s.withTable (pagedirIndex vaddr) = t
  cases (t.page (t.dir.tables (pagedirIndex vaddr)) (pagetblIndex vaddr)).present with
  | true => rfl
  | false => rfl

/-- The heap variables and the hook calls, which no page operation touches. -/
def SameHeap (s t : Vmm) : Prop :=
  t.heapStart = s.heapStart ∧ t.heapEnd = s.heapEnd ∧ t.heapCur = s.heapCur ∧ t.calls = s.calls

theorem SameHeap.refl (s : Vmm) : SameHeap s s := ⟨rfl, rfl, rfl, rfl⟩

theorem SameHeap.trans {s t u : Vmm} (h : SameHeap s t) (k : SameHeap t u) : SameHeap s u :=
  ⟨k.1.trans h.1, k.2.1.trans h.2.1, k.2.2.1.trans h.2.2.1, k.2.2.2.trans h.2.2.2⟩

theorem allocatePage_heap (s : Vmm) (vaddr : Nat) : SameHeap s (s.allocatePage vaddr) := by
  have first : SameHeap s (s.withTable (pagedirIndex vaddr)) := by
    unfold Vmm.withTable
    split
    · exact ⟨rfl, rfl, rfl, rfl⟩
    · exact SameHeap.refl s
  rw [allocatePage_eq]
  split
  · exact first
  · exact first.trans ⟨rfl, rfl, rfl, rfl⟩

theorem freePage_heap (s : Vmm) (vaddr : Nat) : SameHeap s (s.freePage vaddr) := by
  unfold Vmm.freePage
  dsimp only
  split
  · exact ⟨rfl, rfl, rfl, rfl⟩
  · split <;> exact ⟨rfl, rfl, rfl, rfl⟩

theorem freePage_tables (s : Vmm) (vaddr : Nat) : (s.freePage vaddr).dir = s.dir := by
  unfold Vmm.freePage
  dsimp only
  split
  · rfl
  · split <;> rfl

theorem freePage_entries (s : Vmm) (va : Nat) : (s.freePage va).entries =
    if s.dir.tables (pagedirIndex va) ≠ 0 ∧ (s.entryOf va).present then
      Function.update s.entries (pageAddress (s.dir.tables (pagedirIndex va)) (pagetblIndex va))
        { s.entryOf va with present := false, writeable := false }
    else s.entries := by
  unfold Vmm.freePage Vmm.entryOf
  dsimp only
  by_cases null : s.dir.tables (pagedirIndex va) = 0
  · rw [if_pos null, if_neg (fun both => both.1 null)]
    rfl
  · rw [if_neg null]
    by_cases present : (s.page (s.dir.tables (pagedirIndex va)) (pagetblIndex va)).present = true
    · rw [if_neg (by simp [present]), if_pos ⟨null, present⟩]
      rfl
    · rw [if_pos (by simpa using present), if_neg (fun both => present both.2)]
      rfl

theorem freePage_pmm (s : Vmm) (va : Nat) : (s.freePage va).pmm.placementaddr = s.pmm.placementaddr := by
  unfold Vmm.freePage
  dsimp only
  split
  · rfl
  · split
    · rfl
    · simp only [Vmm.setPage, Vmm.log, kfreePageFrame_eq]

def pagesFrom : (start count : Nat) → List Nat
  | _, 0 => []
  | start, count + 1 => start :: pagesFrom (start + 4096) count

def regionPages (startVa endVa : Nat) : List Nat :=
  pagesFrom (startVa / 4096 * 4096) (endVa / 4096 + 1 - startVa / 4096)

theorem mem_pagesFrom (va start count : Nat) :
    va ∈ pagesFrom start count ↔ ∃ k, k < count ∧ va = start + 4096 * k := by
  induction count generalizing start with
  | zero => simp [pagesFrom]
  | succ count ih =>
    rw [pagesFrom, List.mem_cons, ih]
    constructor
    · rintro (rfl | ⟨k, hk, rfl⟩)
      · exact ⟨0, by omega, by omega⟩
      · exact ⟨k + 1, by omega, by omega⟩
    · rintro ⟨k, hk, rfl⟩
      cases k with
      | zero => exact .inl (by omega)
      | succ k => exact .inr ⟨k, by omega, by omega⟩

theorem mem_regionPages (va startVa endVa : Nat) : va ∈ regionPages startVa endVa ↔
    va % 4096 = 0 ∧ startVa / 4096 ≤ va / 4096 ∧ va / 4096 ≤ endVa / 4096 := by
  rw [regionPages, mem_pagesFrom]
  constructor
  · rintro ⟨k, hk, rfl⟩
    omega
  · rintro ⟨aligned, lower, upper⟩
    exact ⟨va / 4096 - startVa / 4096, by omega, by omega⟩

theorem regionLoop_fold (body : Vmm → Nat → Vmm) (count fuel start stop : Nat) (s : Vmm)
    (inside : ∀ k, k < count → start + 4096 * k ≤ stop) (reached : stop < start + 4096 * count)
    (room : start + 4096 * count < 2 ^ 32) (enough : count < fuel) :
    regionLoop body fuel start stop s = some ((pagesFrom start count).foldl body s) := by
  induction count generalizing fuel start s with
  | zero =>
    obtain ⟨fuel, rfl⟩ : ∃ f, fuel = f + 1 := ⟨fuel - 1, by omega⟩
    rw [regionLoop, if_neg (by omega)]
    rfl
  | succ count ih =>
    obtain ⟨fuel, rfl⟩ : ∃ f, fuel = f + 1 := ⟨fuel - 1, by omega⟩
    have first := inside 0 (by omega)
    have next : wrap (start + pageSize) = start + 4096 := by
      rw [pageSize, wrap_eq (n := start + 0x1000) (by grind)]
    rw [regionLoop, if_pos (by omega), next, pagesFrom, List.foldl_cons]
    refine ih fuel (start + 4096) (body s start) ?_ (by omega) (by omega) (by omega)
    intro k hk
    have := inside (k + 1) (by omega)
    omega

/-- A loop whose last page is the topmost one never gets past it. -/
theorem regionLoop_top (body : Vmm → Nat → Vmm) (fuel start : Nat) (s : Vmm)
    (word : start < 2 ^ 32) (aligned : start % 4096 = 0) :
    regionLoop body fuel start 0xFFFFF000 s = none := by
  induction fuel generalizing start s with
  | zero => rfl
  | succ fuel ih =>
    have inside : start ≤ 0xFFFFF000 := by omega
    rw [regionLoop, if_pos inside]
    refine ih _ _ (wrap_lt _) ?_
    simp only [wrap, pageSize]
    omega

/-- A region call returns exactly when its last page is not the topmost page,
and then has handled each page of the region once. -/
theorem region_eq (body : Vmm → Nat → Vmm) (s : Vmm) (startVa endVa : Nat)
    (hs : startVa < 2 ^ 32) (he : endVa < 2 ^ 32) :
    regionLoop body regionFuel (startVa &&& 0xfffff000) (endVa &&& 0xfffff000) s =
      if endVa < 0xFFFFF000 then some ((regionPages startVa endVa).foldl body s) else none := by
  rw [and_pageMask hs, and_pageMask he]
  split
  · rename_i below
    unfold regionPages
    by_cases empty : endVa / 4096 < startVa / 4096
    · have none : endVa / 4096 + 1 - startVa / 4096 = 0 := by omega
      rw [none]
      exact regionLoop_fold body 0 regionFuel _ _ s (fun k hk => by omega) (by omega) (by omega)
        (by decide)
    · refine regionLoop_fold body _ regionFuel _ _ s ?_ ?_ ?_ ?_
      · intro k hk
        omega
      · omega
      · omega
      · unfold regionFuel
        omega
  · rename_i top
    have last : endVa / 4096 * 4096 = 0xFFFFF000 := by omega
    rw [last]
    exact regionLoop_top body regionFuel _ s (by omega) (by omega)

theorem foldl_keeps (body : Vmm → Nat → Vmm) (P : Vmm → Prop) (vas : List Nat)
    (keeps : ∀ s va, va ∈ vas → P s → P (body s va)) (s : Vmm) (initial : P s) :
    P (vas.foldl body s) := by
  apply Runs.foldl_invariant body (fun _ _ => True) P vas
  · intro t va member ht _
    exact keeps t va member ht
  · exact initial
  · exact Runs.permitted_of_forall _ (fun _ _ => trivial) s vas

theorem foldl_heap (body : Vmm → Nat → Vmm) (same : ∀ s va, SameHeap s (body s va))
    (vas : List Nat) (s : Vmm) : SameHeap s (vas.foldl body s) :=
  foldl_keeps body (SameHeap s) vas (fun t va _ ht => ht.trans (same t va)) s (SameHeap.refl s)

/-- All that liballoc_alloc can do: refuse, loop for ever, or map the region and
move `heap_cur` behind it. -/
theorem liballocAlloc_eq (s : Vmm) (pages : Int) (word : s.heapCur < 2 ^ 32) :
    s.liballocAlloc pages =
      if s.refuses pages then
        some ({ s.qemuPrintf "Out of memory: You need a bigger heap pal\n" with
          calls := s.calls ++ [.refused pages] }, 0)
      else if wrap (s.heapCur + regionSize pages) < 0xFFFFF000 then
        let t := (regionPages s.heapCur (wrap (s.heapCur + regionSize pages))).foldl
          Vmm.allocatePage s
        some ({ t with heapCur := wrap (s.heapCur + regionSize pages),
                       calls := s.calls ++ [.alloc pages s.heapCur] }, s.heapCur)
      else none := by
  have same := foldl_heap Vmm.allocatePage allocatePage_heap
    (regionPages s.heapCur (wrap (s.heapCur + regionSize pages))) s
  unfold Vmm.liballocAlloc Vmm.allocateRegion
  dsimp only
  by_cases refused : s.refuses pages
  · simp only [refused, if_true]
    rfl
  · simp only [refused, if_false, region_eq _ s _ _ word (wrap_lt _)]
    by_cases below : wrap (s.heapCur + regionSize pages) < 0xFFFFF000
    · simp only [below, if_true, Option.map_some, same.2.2.1, same.2.2.2]
    · simp only [below, if_false, Option.map_none]

theorem liballocFree_eq (s : Vmm) (ptr : Nat) (pages : Int) (word : ptr < 2 ^ 32) :
    s.liballocFree ptr pages =
      if wrap (ptr + regionSize pages) < 0xFFFFF000 then
        let t := (regionPages ptr (wrap (ptr + regionSize pages))).foldl Vmm.freePage s
        some ({ t with calls := s.calls ++ [.free ptr pages] }, 1)
      else none := by
  have same := foldl_heap Vmm.freePage freePage_heap
    (regionPages ptr (wrap (ptr + regionSize pages))) s
  unfold Vmm.liballocFree Vmm.freeRegion
  dsimp only
  rw [region_eq _ s _ _ word (wrap_lt _)]
  by_cases below : wrap (ptr + regionSize pages) < 0xFFFFF000
  · simp only [below, if_true, Option.map_some, same.2.2.2]
  · simp only [below, if_false, Option.map_none]

theorem liballocAlloc_returns (s : Vmm) (pages : Int) (word : s.heapCur < 2 ^ 32)
    (accepted : ¬ s.refuses pages) (below : wrap (s.heapCur + regionSize pages) < 0xFFFFF000) :
    ∃ t, s.liballocAlloc pages = some (t, s.heapCur) ∧
      t.heapStart = s.heapStart ∧ t.heapEnd = s.heapEnd ∧
      t.heapCur = wrap (s.heapCur + regionSize pages) ∧
      t.calls = s.calls ++ [.alloc pages s.heapCur] := by
  have same := foldl_heap Vmm.allocatePage allocatePage_heap
    (regionPages s.heapCur (wrap (s.heapCur + regionSize pages))) s
  rw [liballocAlloc_eq s pages word, if_neg accepted, if_pos below]
  exact ⟨_, rfl, same.1, same.2.1, rfl, rfl⟩

theorem liballocFree_returns (s : Vmm) (ptr : Nat) (pages : Int) (word : ptr < 2 ^ 32)
    (below : wrap (ptr + regionSize pages) < 0xFFFFF000) :
    ∃ t, s.liballocFree ptr pages = some (t, 1) ∧
      t.heapStart = s.heapStart ∧ t.heapEnd = s.heapEnd ∧ t.heapCur = s.heapCur ∧
      t.calls = s.calls ++ [.free ptr pages] := by
  have same := foldl_heap Vmm.freePage freePage_heap
    (regionPages ptr (wrap (ptr + regionSize pages))) s
  rw [liballocFree_eq s ptr pages word, if_pos below]
  exact ⟨_, rfl, same.1, same.2.1, same.2.2.1, rfl⟩

end RiseOS
