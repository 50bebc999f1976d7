import RiseOS.Paging.Coherence
import RiseOS.Paging.Region

/-! The page tables as a set of pages: what runs of the four calls have mapped, and
what the processor's walk finds there. -/
namespace RiseOS
open Words Runs

def PagingCall.pages : PagingCall → Set Nat
  | .allocatePage vaddr | .freePage vaddr => {vaddr.toNat / 4096}
  | .allocateRegion startVa endVa | .freeRegion startVa endVa =>
      Set.Icc (startVa.toNat / 4096) (endVa.toNat / 4096)

def PagingCall.frees : PagingCall → Bool
  | .allocatePage _ | .allocateRegion _ _ => false
  | .freePage _ | .freeRegion _ _ => true

/-- What a call does to the pages that are mapped. -/
def spaceStep (pages : Set Nat) (call : PagingCall) : Set Nat :=
  if call.frees then pages \ call.pages else pages ∪ call.pages

/-- The pages of a list of addresses. -/
def pagesOf (vas : List Nat) : Set Nat := {p | ∃ va ∈ vas, p = va / 4096}

theorem pagesOf_cons (va : Nat) (rest : List Nat) : pagesOf (va :: rest) = {va / 4096} ∪ pagesOf rest := by
  ext p
  simp [pagesOf]

theorem pagesOf_region (startVa endVa : Nat) :
    pagesOf (regionPages startVa endVa) = Set.Icc (startVa / 4096) (endVa / 4096) := by
  ext p
  simp only [pagesOf, Set.mem_ofPred_eq, mem_regionPages, Set.mem_Icc]
  constructor
  · rintro ⟨va, inside, rfl⟩
    exact inside.2
  · intro inside
    exact ⟨p * 4096, by omega, by omega⟩

/-- Exactly these pages are present, all of them for writing and for the user. -/
structure Spaced (s : Vmm) (pages : Set Nat) : Prop where
  mirrored : Mirrored s
  present : ∀ va, va < 2 ^ 32 → (PagePresent s va ↔ va / 4096 ∈ pages)
  rights : ∀ va, va < 2 ^ 32 → PagePresent s va →
    (s.entryOf va).writeable = true ∧ (s.entryOf va).user = true

/-- The entries of the pages outside `pages` that were present are as they were. -/
def KeepsEntries (pages : Set Nat) (s t : Vmm) : Prop :=
  ∀ va, va < 2 ^ 32 → PagePresent s va → va / 4096 ∉ pages → t.entryOf va = s.entryOf va

section Page

variable {s : Vmm} {pages : Set Nat} (h : Spaced s pages) {va : Nat} (word : va < 2 ^ 32)
include h word

omit word in
theorem Spaced.tablesFit (fits : TableFits (1024 * sizeofPageTable) s va) :
    TablesFit (pagedirIndex va) (pagedirIndex va) s := by
  refine ⟨h.mirrored.placed.separate, h.mirrored.positive, h.mirrored.word, ?_⟩
  rintro ⟨i, missing⟩
  obtain ⟨inside, null⟩ := Finset.mem_filter.mp missing
  obtain rfl : i = pagedirIndex va := by
    have := Finset.mem_Icc.mp inside
    omega
  have room := fits null
  have few : (missingTables s (pagedirIndex va) (pagedirIndex va)).card ≤ 1 := by
    refine (Finset.card_filter_le _ _).trans ?_
    rw [Finset.Icc_self, Finset.card_singleton]
  have size : 1024 * sizeofPageTable = 0x400000 := rfl
  omega

/-- The entry of a page that is new comes from allocate_page's own stores. -/
theorem Spaced.new_rights (fits : TableFits (1024 * sizeofPageTable) s va) {vb : Nat} (word' : vb < 2 ^ 32)
    (before : ¬PagePresent s vb) (after : PagePresent (s.allocatePage va) vb) :
    ((s.allocatePage va).entryOf vb).writeable = true ∧ ((s.allocatePage va).entryOf vb).user = true := by
  obtain ⟨fit, table, same, _⟩ := withTable_maps (h.tablesFit fits) ⟨le_refl _, le_refl _⟩
  rw [allocatePage_eq] at after ⊢
  generalize s.withTable (pagedirIndex va) = t at fit table same after
  split at after
  · exact absurd ((same vb word').1.mp after) before
  · rename_i absent
    have tableB : t.dir.tables (pagedirIndex vb) ≠ 0 := after.1
    have entry := mapPage_entry fit.separate fit.word word table vb word' tableB
    rw [if_neg absent, entry]
    by_cases page : vb / 4096 = va / 4096
    · rw [if_pos page]
      exact ⟨rfl, rfl⟩
    · have present := after.2
      rw [entry, if_neg page] at present
      exact absurd ((same vb word').1.mp ⟨tableB, present⟩) before

theorem Spaced.allocatePage (fits : TableFits (1024 * sizeofPageTable) s va) :
    Spaced (s.allocatePage va) (pages ∪ {va / 4096}) ∧ KeepsEntries ∅ s (s.allocatePage va) := by
  obtain ⟨_, maps⟩ := allocatePage_maps (h.tablesFit fits) word ⟨le_refl _, le_refl _⟩
  have block : TableFits sizeofPageTable s va := by
    intro null
    have := fits null
    have size : sizeofPageTable ≤ 1024 * sizeofPageTable := by decide
    omega
  refine ⟨⟨h.mirrored.allocatePage block, fun vb word' => ?_, fun vb word' after => ?_⟩, ?_⟩
  · rw [maps.present vb word', h.present vb word', Set.mem_union, Set.mem_singleton_iff]
    simp
  · by_cases before : PagePresent s vb
    · rw [maps.kept vb word' before]
      exact h.rights vb word' before
    · exact h.new_rights word fits word' before after
  · intro vb word' before _
    exact maps.kept vb word' before

/-- free_page changes its own entry and no other. -/
theorem Spaced.freed_other {vb : Nat} (word' : vb < 2 ^ 32) (table : s.dir.tables (pagedirIndex vb) ≠ 0)
    (other : vb / 4096 ≠ va / 4096) : (s.freePage va).entryOf vb = s.entryOf vb := by
  unfold Vmm.entryOf Vmm.page
  rw [freePage_tables, freePage_entries]
  split
  · rename_i own
    have apart := entry_apart h.mirrored.placed.separate h.mirrored.word word' word other table own.1
    rw [Function.update_of_ne apart]
  · rfl

omit h word in
theorem freed_own {vb : Nat} (page : vb / 4096 = va / 4096) : ¬PagePresent (s.freePage va) vb := by
  obtain ⟨slot, index⟩ := slot_of_page page
  unfold PagePresent Vmm.entryOf Vmm.page
  rw [freePage_tables, freePage_entries, slot, index]
  split
  · rw [Function.update_self]
    exact fun both => Bool.false_ne_true both.2
  · rename_i absent
    exact absent

theorem Spaced.freePage :
    Spaced (s.freePage va) (pages \ {va / 4096}) ∧ KeepsEntries {va / 4096} s (s.freePage va) := by
  have kept : KeepsEntries {va / 4096} s (s.freePage va) := by
    intro vb word' present other
    exact h.freed_other word word' present.1 other
  have present : ∀ vb, vb < 2 ^ 32 →
      (PagePresent (s.freePage va) vb ↔ PagePresent s vb ∧ vb / 4096 ≠ va / 4096) := by
    intro vb word'
    by_cases page : vb / 4096 = va / 4096
    · exact ⟨fun after => absurd after (freed_own page), fun both => absurd page both.2⟩
    · unfold PagePresent
      rw [freePage_tables]
      constructor
      · rintro ⟨table, entry⟩
        rw [h.freed_other word word' table page] at entry
        exact ⟨⟨table, entry⟩, page⟩
      · rintro ⟨⟨table, entry⟩, _⟩
        rw [h.freed_other word word' table page]
        exact ⟨table, entry⟩
  refine ⟨⟨h.mirrored.freePage va, fun vb word' => ?_, fun vb word' after => ?_⟩, kept⟩
  · rw [present vb word', h.present vb word']
    simp
  · obtain ⟨before, other⟩ := (present vb word').mp after
    rw [kept vb word' before other]
    exact h.rights vb word' before

end Page

/-! ### Calls -/

theorem KeepsEntries.trans {first second : Set Nat} {s t u : Vmm} (one : KeepsEntries first s t)
    (two : KeepsEntries second t u)
    (stays : ∀ va, va < 2 ^ 32 → PagePresent s va → va / 4096 ∉ first → PagePresent t va) :
    KeepsEntries (first ∪ second) s u := by
  intro va word present outside
  rw [Set.mem_union, not_or] at outside
  rw [two va word (stays va word present outside.1) outside.2, one va word present outside.1]

theorem Spaced.allocatePages (vas : List Nat) {s : Vmm} {pages : Set Nat} (h : Spaced s pages)
    (words : ∀ va ∈ vas, va < 2 ^ 32)
    (fits : Permitted (fun t va => some (t.allocatePage va)) (TableFits (1024 * sizeofPageTable)) s vas) :
    Spaced (vas.foldl Vmm.allocatePage s) (pages ∪ pagesOf vas) ∧
      KeepsEntries ∅ s (vas.foldl Vmm.allocatePage s) := by
  induction vas generalizing s pages with
  | nil =>
    have none_ : pages ∪ pagesOf [] = pages := by simp [pagesOf]
    rw [none_]
    exact ⟨h, fun _ _ _ _ => rfl⟩
  | cons va rest ih =>
    obtain ⟨first, kept⟩ := h.allocatePage (words va List.mem_cons_self) fits.1
    obtain ⟨last, kept'⟩ := ih first (fun w mem => words w (List.mem_cons_of_mem va mem)) (fits.2 _ rfl)
    rw [pagesOf_cons, ← Set.union_assoc, List.foldl_cons]
    refine ⟨last, ?_⟩
    have both := kept.trans kept' fun vb word present _ =>
      (first.present vb word).mpr (.inl ((h.present vb word).mp present))
    rwa [Set.union_empty] at both

theorem Spaced.freePages (vas : List Nat) {s : Vmm} {pages : Set Nat} (h : Spaced s pages)
    (words : ∀ va ∈ vas, va < 2 ^ 32) :
    Spaced (vas.foldl Vmm.freePage s) (pages \ pagesOf vas) ∧
      KeepsEntries (pagesOf vas) s (vas.foldl Vmm.freePage s) := by
  induction vas generalizing s pages with
  | nil =>
    have none_ : pages \ pagesOf [] = pages := by simp [pagesOf]
    rw [none_]
    exact ⟨h, fun _ _ _ _ => rfl⟩
  | cons va rest ih =>
    obtain ⟨first, kept⟩ := h.freePage (words va List.mem_cons_self)
    obtain ⟨last, kept'⟩ := ih first (fun w mem => words w (List.mem_cons_of_mem va mem))
    rw [pagesOf_cons, ← Set.sdiff_sdiff, List.foldl_cons]
    refine ⟨last, ?_⟩
    exact kept.trans kept' fun vb word present other =>
      (first.present vb word).mpr ⟨(h.present vb word).mp present, other⟩

/-- What a call frees loses its entries, the rest keeps them. -/
def PagingCall.freed (call : PagingCall) : Set Nat := if call.frees then call.pages else ∅

theorem Spaced.step {s t : Vmm} {pages : Set Nat} (h : Spaced s pages) {call : PagingCall}
    (fits : FitsCall (1024 * sizeofPageTable) s call) (stepped : pagingStep s call = some t) :
    Spaced t (spaceStep pages call) ∧ KeepsEntries call.freed s t := by
  have words : ∀ startVa endVa : BitVec 32, ∀ va ∈ regionPages startVa.toNat endVa.toNat, va < 2 ^ 32 := by
    intro startVa endVa va member
    have last := endVa.isLt
    have inside := (mem_regionPages va _ _).mp member
    omega
  cases call with
  | allocatePage vaddr =>
    cases stepped
    exact h.allocatePage vaddr.isLt fits
  | freePage vaddr =>
    cases stepped
    exact h.freePage vaddr.isLt
  | allocateRegion startVa endVa =>
    rw [pagingStep, Vmm.allocateRegion, region_eq _ s _ _ startVa.isLt endVa.isLt] at stepped
    split at stepped
    · cases stepped
      have done := h.allocatePages _ (words startVa endVa) fits
      rwa [pagesOf_region] at done
    · cases stepped
  | freeRegion startVa endVa =>
    rw [pagingStep, Vmm.freeRegion, region_eq _ s _ _ startVa.isLt endVa.isLt] at stepped
    split at stepped
    · cases stepped
      have done := h.freePages _ (words startVa endVa)
      rwa [pagesOf_region] at done
    · cases stepped

theorem Spaced.through (calls : List PagingCall) {s t : Vmm} {pages : Set Nat} (h : Spaced s pages)
    (fits : Permitted pagingStep (FitsCall (1024 * sizeofPageTable)) s calls)
    (ran : run pagingStep s calls = some t) : Spaced t (calls.foldl spaceStep pages) := by
  induction calls generalizing s pages with
  | nil =>
    cases ran
    exact h
  | cons call rest ih =>
    obtain ⟨u, here, later⟩ := Option.bind_eq_some_iff.mp ran
    exact ih (h.step fits.1 here).1 (fits.2 u here) later

/-- A page that none of the calls frees is translated as before. -/
theorem Spaced.through_keeps (calls : List PagingCall) {s t : Vmm} {pages : Set Nat} (h : Spaced s pages)
    (fits : Permitted pagingStep (FitsCall (1024 * sizeofPageTable)) s calls)
    (ran : run pagingStep s calls = some t) {va : Nat} (word : va < 2 ^ 32) (mapped : va / 4096 ∈ pages)
    (left : ∀ call ∈ calls, va / 4096 ∉ call.freed) : t.walk va = s.walk va := by
  induction calls generalizing s pages with
  | nil =>
    cases ran
    rfl
  | cons call rest ih =>
    obtain ⟨u, here, later⟩ := Option.bind_eq_some_iff.mp ran
    obtain ⟨next, kept⟩ := h.step fits.1 here
    have outside := left call List.mem_cons_self
    have still : va / 4096 ∈ spaceStep pages call := by
      unfold PagingCall.freed at outside
      unfold spaceStep
      split
      · rename_i frees
        rw [if_pos frees] at outside
        exact ⟨mapped, outside⟩
      · exact .inl mapped
    have presentS := (h.present va word).mpr mapped
    have presentU := (next.present va word).mpr still
    rw [ih next (fits.2 u here) later still fun c mem => left c (List.mem_cons_of_mem call mem),
      walk_of_present u next.mirrored.placed.coherent va word presentU,
      walk_of_present s h.mirrored.placed.coherent va word presentS, kept va word presentS outside]

/-- The processor finds exactly the pages that the calls so far have mapped and not
unmapped, for writing and for the user, and each where it was until it is unmapped. -/
def TranslatesSet (s : Vmm) (calls : List PagingCall) : Prop :=
  ∀ done, done <+: calls → ∀ t, run pagingStep s done = some t →
    (∀ va, va < 2 ^ 32 → ((t.walk va).isSome ↔ va / 4096 ∈ done.foldl spaceStep ∅)) ∧
    (∀ va, va < 2 ^ 32 → ∀ e ∈ t.walkEntry va, e.writeable = true ∧ e.user = true) ∧
    ∀ more, done ++ more <+: calls → ∀ u, run pagingStep t more = some u → ∀ va, va < 2 ^ 32 →
      va / 4096 ∈ done.foldl spaceStep ∅ → (∀ call ∈ more, va / 4096 ∉ call.freed) →
      u.walk va = t.walk va

/-- From an all-zero directory on, where the clearing behind each new table does not run
over the end of the words. -/
theorem tables_hold_set (s : Vmm) (calls : List PagingCall)
    (zero : ∀ i, i < 1024 → s.dir.tables i = 0 ∧ s.dir.tablesPhysical i = PageDirEntry.zero)
    (positive : 0 < s.pmm.placementaddr) (word : s.pmm.placementaddr < 2 ^ 32)
    (fits : Permitted pagingStep (FitsCall (1024 * sizeofPageTable)) s calls) : TranslatesSet s calls := by
  have initial : Spaced s ∅ := by
    refine ⟨Mirrored.zero zero positive word, fun va inside => ?_, fun va inside present => ?_⟩
    · exact ⟨fun present => absurd (zero _ (slot_lt inside)).1 present.1, fun none_ => absurd none_ (Set.notMem_empty _)⟩
    · exact absurd (zero _ (slot_lt inside)).1 present.1
  rintro done ⟨rest, rfl⟩ t ran
  obtain ⟨before, after⟩ := (permitted_append _ _ _ _ _).mp fits
  have spaced := initial.through done before ran
  have coherent := spaced.mirrored.placed.coherent
  refine ⟨fun va inside => ?_, fun va inside e found => ?_, ?_⟩
  · rw [← spaced.present va inside]
    by_cases present : PagePresent t va
    · rw [walk_of_present t coherent va inside present]
      simp [present]
    · rw [walk_of_absent t coherent va inside present]
      simp [present]
  · by_cases present : PagePresent t va
    · rw [walkEntry_present t coherent va inside present] at found
      cases found
      exact spaced.rights va inside present
    · rw [walkEntry_absent t coherent va inside present] at found
      cases found
  · rintro more ⟨rest', split⟩ u later va inside mapped left
    rw [List.append_assoc] at split
    obtain rfl := List.append_cancel_left split
    exact spaced.through_keeps more ((permitted_append _ _ _ _ _).mp (after t ran)).1 later inside mapped left

theorem border_region_held : TranslatesSet emptyDirectory
    [.allocatePage 0x1000#32, .allocateRegion 0x3FF000#32 0x400FFF#32, .freePage 0x1000#32,
      .freeRegion 0x3FF000#32 0x400FFF#32] := by
  apply tables_hold_set
  · intro i _
    exact ⟨rfl, rfl⟩
  · decide
  · decide
  · decide

end RiseOS
