import RiseOS.Paging.Presence

/-! allocate_page and free_page against the walk of the processor: the mapping
that was meant, all other pages as they were, and one undone by the other. -/
namespace RiseOS
open Words

/-- The page translates to the frame, writeable and for the user; all other pages
translate as before. -/
structure Installs (s : Vmm) (va f : Nat) (t : Vmm) : Prop where
  page : ∀ a, a < 2 ^ 32 → a / 4096 = va / 4096 → t.walk a = some (f + a % 4096) ∧
    ∃ p, t.walkEntry a = some p ∧ p.writeable = true ∧ p.user = true
  others : ∀ a, a < 2 ^ 32 → a / 4096 ≠ va / 4096 → t.walk a = s.walk a

section Table

variable {s : Vmm} (placed : Placed s) (low : s.pmm.placementaddr < 2 ^ 32) {va : Nat}
  (word : va < 2 ^ 32) (room : s.dir.tables (pagedirIndex va) = 0 → TableRoom s)
include room

include placed in
theorem withTable_walks : Placed (s.withTable (pagedirIndex va)) ∧
    (s.withTable (pagedirIndex va)).dir.tables (pagedirIndex va) ≠ 0 ∧
    ∀ a, a < 2 ^ 32 → (s.withTable (pagedirIndex va)).walkEntry a = s.walkEntry a := by
  unfold Vmm.withTable
  split
  · rename_i null
    have space := room null
    have placed' := createTable_placed (i := pagedirIndex va) space.fits placed
    refine ⟨placed', ?_, ?_⟩
    · rw [createTable_own]
      exact (space.newTable_eq (pagedirIndex va)).2.2.2
    · intro a inside
      have page := createTable_page (i := pagedirIndex va) space placed.separate a inside
      by_cases own : pagedirIndex a = pagedirIndex va
      · have absent : ¬ PagePresent (s.createTable (pagedirIndex va)) a := by
          rintro ⟨_, present⟩
          rw [page.2 own] at present
          cases present
        rw [walkEntry_absent _ placed'.coherent a inside absent,
          walkEntry_null _ placed.coherent a inside (by rw [own]; exact null)]
      · have same := createTable_other s (pagedirIndex va) (pagedirIndex a) own
        by_cases table : s.dir.tables (pagedirIndex a) = 0
        · rw [walkEntry_null _ placed'.coherent a inside (same.trans table),
            walkEntry_null _ placed.coherent a inside table]
        · rw [walkEntry_table _ placed'.coherent a inside (by rw [same]; exact table),
            walkEntry_table _ placed.coherent a inside table, page.1 own table]
  · rename_i table
    exact ⟨placed, table, fun _ _ => rfl⟩

include low in
theorem withTable_low : (s.withTable (pagedirIndex va)).pmm.placementaddr < 2 ^ 32 := by
  unfold Vmm.withTable
  split
  · rename_i null
    have space := room null
    obtain ⟨fresh, bumped, _⟩ := space.newTable_eq (pagedirIndex va)
    have := space.room
    omega
  · exact low

end Table

theorem mapPage_walks {t : Vmm} (placed : Placed t) (low : t.pmm.placementaddr < 2 ^ 32) {va : Nat}
    (word : va < 2 ^ 32) (table : t.dir.tables (pagedirIndex va) ≠ 0) (a : Nat) (inside : a < 2 ^ 32) :
    (t.mapPage (t.dir.tables (pagedirIndex va)) (pagetblIndex va)).walkEntry a =
      if a / 4096 = va / 4096 then some (mappedEntry (t.entryOf va) t.pmm.kallocPageFrame.2)
      else t.walkEntry a := by
  have dir := mapPage_dir t (t.dir.tables (pagedirIndex va)) (pagetblIndex va)
  have entry := mapPage_entry placed.separate low word table a inside
  have placed' : Placed (t.mapPage (t.dir.tables (pagedirIndex va)) (pagetblIndex va)) :=
    placed.congr dir (kallocPageFrame_placementaddr t.pmm)
  generalize t.mapPage (t.dir.tables (pagedirIndex va)) (pagetblIndex va) = u at dir entry placed'
  split
  · rename_i page
    have slot := (slot_of_page page).1
    have own := entry (by rw [slot]; exact table)
    rw [if_pos page] at own
    have present : PagePresent u a := by
      refine ⟨by rw [dir, slot]; exact table, ?_⟩
      rw [own]
      rfl
    rw [walkEntry_present u placed'.coherent a inside present, own]
  · rename_i page
    by_cases tableA : t.dir.tables (pagedirIndex a) = 0
    · rw [walkEntry_null t placed.coherent a inside tableA,
        walkEntry_null u placed'.coherent a inside (by rw [dir]; exact tableA)]
    · have same := entry tableA
      rw [if_neg page] at same
      rw [walkEntry_table t placed.coherent a inside tableA,
        walkEntry_table u placed'.coherent a inside (by rw [dir]; exact tableA), same]

/-- The field keeps the low 20 bits of a byte address, so the page gets the frame
only if that is frame 0. -/
theorem installs_iff (s : Vmm) (va f : Nat) (placed : Placed s) (low : s.pmm.placementaddr < 2 ^ 32)
    (word : va < 2 ^ 32) (room : s.dir.tables (pagedirIndex va) = 0 → TableRoom s)
    (absent : ¬ PagePresent s va)
    (given : (s.withTable (pagedirIndex va)).pmm.kallocPageFrame.2 = f) (success : f ≠ noFrame) :
    Installs s va f (s.allocatePage va) ↔ f = 0 := by
  obtain ⟨placed', table, walks⟩ := withTable_walks placed room
  have low' := withTable_low low room
  have entry : ¬ ((s.withTable (pagedirIndex va)).entryOf va).present = true := by
    intro present
    have found := walkEntry_present _ placed'.coherent va word ⟨table, present⟩
    rw [walks va word, walkEntry_absent s placed.coherent va word absent] at found
    cases found
  have page : f < 2 ^ 32 ∧ f % 4096 = 0 := by
    rcases kallocPageFrame_cases (s.withTable (pagedirIndex va)).pmm with
      ⟨i, _, _, _, _, result⟩ | ⟨_, _, result⟩
    · rw [result, frameAddress_mod] at given
      omega
    · rw [result] at given
      exact absurd given.symm success
  rw [allocatePage_eq, if_neg entry]
  generalize s.withTable (pagedirIndex va) = t at placed' table walks low' given
  have mapped := mapPage_walks placed' low' word table
  have field : (mappedEntry (t.entryOf va) t.pmm.kallocPageFrame.2).frame.toNat = f % 2 ^ 20 := by
    rw [mappedEntry, given]
    exact BitVec.toNat_ofNat _ _
  constructor
  · intro installs
    have walked := (installs.page va word rfl).1
    rw [walk_walkEntry, mapped va word, if_pos rfl, Option.map_some, field] at walked
    have sum := Option.some.inj walked
    omega
  · rintro rfl
    refine ⟨?_, ?_⟩
    · intro a inside same
      rw [walk_walkEntry, mapped a inside, if_pos same, Option.map_some, field]
      exact ⟨by simp, _, rfl, rfl, rfl⟩
    · intro a inside other
      rw [walk_walkEntry, walk_walkEntry, mapped a inside, if_neg other, walks a inside]

theorem oneMapping_placed : Placed oneMapping := by
  have single : ∀ i, oneMapping.dir.tables i ≠ 0 → i = 0 := by
    intro i table
    by_contra other
    exact table (if_neg other)
  refine ⟨oneMapping_coherent, ?_, ?_⟩
  · intro i _ table
    rw [single i table]
    decide
  · intro i j _ _ table same
    rw [single i table, single j (same ▸ table)]

/-- The next free frame is 3 MiB, but page 0x2000 is mapped to the frame that the
low 20 bits of 0x302000 name. -/
theorem frame_address_truncated : oneMapping.pmm.kallocPageFrame.2 = 0x302000 ∧
    ¬ PagePresent oneMapping 0x2000 ∧ (oneMapping.allocatePage 0x2000).walk 0x2000 = some 0x2000000 ∧
    ¬ Installs oneMapping 0x2000 0x302000 (oneMapping.allocatePage 0x2000) := by
  have given : oneMapping.pmm.kallocPageFrame.2 = 0x302000 := by decide +kernel
  have walked : (oneMapping.allocatePage 0x2000).walk 0x2000 = some 0x2000000 := by decide +kernel
  refine ⟨given, fun present => absurd present.2 (by decide), walked, fun installs => ?_⟩
  have page := (installs.page 0x2000 (by decide) rfl).1
  rw [walked] at page
  exact absurd page (by decide)

theorem second_page_installs_iff :
    Installs oneMapping 0x2000 0x302000 (oneMapping.allocatePage 0x2000) ↔ 0x302000 = 0 :=
  installs_iff oneMapping 0x2000 0x302000 oneMapping_placed (by decide) (by decide)
    (fun null => absurd null (by decide)) (fun present => absurd present.2 (by decide))
    (by decide +kernel) (by decide)

/-- What free_page should make of what allocate_page did. -/
structure Undoes (s : Vmm) (va f : Nat) : Prop where
  absent : ¬ PagePresent ((s.allocatePage va).freePage va) va
  freed : ((s.allocatePage va).entryOf va).frame.toNat = f
  bitmap : ((s.allocatePage va).freePage va).pmm.bitmap = s.pmm.bitmap
  others : ∀ a, a ≠ pageAddress (s.dir.tables (pagedirIndex va)) (pagetblIndex va) →
    ((s.allocatePage va).freePage va).entries a = s.entries a

theorem freePage_eq {s : Vmm} {va : Nat} (present : PagePresent s va) :
    s.freePage va =
      ({ s with pmm := s.pmm.kfreePageFrame (s.entryOf va).frame.toNat } : Vmm).setPage
        (s.dir.tables (pagedirIndex va)) (pagetblIndex va)
        { s.entryOf va with present := false, writeable := false } := by
  obtain ⟨table, entry⟩ := present
  have known : (!(s.page (s.dir.tables (pagedirIndex va)) (pagetblIndex va)).present) = false := by
    unfold Vmm.entryOf at entry
    rw [entry]
    rfl
  unfold Vmm.freePage
  dsimp only
  rw [if_neg table, known]
  rfl

/-- The index at which kfree_page_frame arrives from frame `i`'s address. -/
theorem freed_index {placementaddr i : Nat} (low : placementaddr < 2 ^ 32) (inside : i < frameLimit) :
    wsub (frameAddress placementaddr i) placementaddr / 4096 = i ↔ placementaddr % 4096 ≠ 0 := by
  rw [frameAddress_mod]
  unfold frameLimit at inside
  simp only [wsub, wrap]
  omega

section AbsentPage

variable {s : Vmm} {va i : Nat} (table : s.dir.tables (pagedirIndex va) ≠ 0)
  (absent : ¬ PagePresent s va) (lowest : findClear s.pmm.bitmap frameLimit 0 = some i)

include lowest in
theorem kalloc_lowest : s.pmm.kallocPageFrame =
    ({ s.pmm with bitmap := setbit s.pmm.bitmap i }, frameAddress s.pmm.placementaddr i) := by
  simp [Pmm.kallocPageFrame, lowest]

include table absent

theorem allocatePage_absent :
    s.allocatePage va = s.mapPage (s.dir.tables (pagedirIndex va)) (pagetblIndex va) := by
  have entry : ¬ (s.entryOf va).present = true := fun present => absent ⟨table, present⟩
  have here : s.withTable (pagedirIndex va) = s := if_neg table
  rw [allocatePage_eq, here, if_neg entry]

include lowest

theorem allocatePage_own : (s.allocatePage va).entryOf va =
    mappedEntry (s.entryOf va) (frameAddress s.pmm.placementaddr i) := by
  rw [allocatePage_absent table absent]
  unfold Vmm.entryOf Vmm.page
  rw [mapPage_dir, mapPage_entries, Function.update_self, kalloc_lowest lowest]
  rfl

theorem allocatePage_present : PagePresent (s.allocatePage va) va := by
  constructor
  · rw [allocatePage_absent table absent, mapPage_dir]
    exact table
  · rw [allocatePage_own table absent lowest]
    rfl

theorem allocatePage_field : ((s.allocatePage va).entryOf va).frame.toNat =
    frameAddress s.pmm.placementaddr i % 2 ^ 20 := by
  rw [allocatePage_own table absent lowest, mappedEntry]
  exact BitVec.toNat_ofNat _ _

/-- The bit that free_page clears is the one its index computation arrives at. -/
theorem undone_bitmap : ((s.allocatePage va).freePage va).pmm.bitmap =
    clearbit (setbit s.pmm.bitmap i)
      (wsub (frameAddress s.pmm.placementaddr i % 2 ^ 20) s.pmm.placementaddr / 4096) := by
  have pmm : (s.allocatePage va).pmm = { s.pmm with bitmap := setbit s.pmm.bitmap i } := by
    rw [allocatePage_absent table absent, mapPage_pmm, kalloc_lowest lowest]
  rw [freePage_eq (allocatePage_present table absent lowest)]
  unfold Vmm.setPage Vmm.log
  dsimp only
  rw [kfreePageFrame_eq, allocatePage_field table absent lowest, pmm]

theorem undone_absent : ¬ PagePresent ((s.allocatePage va).freePage va) va := by
  rintro ⟨_, still⟩
  rw [freePage_eq (allocatePage_present table absent lowest)] at still
  unfold Vmm.entryOf Vmm.page Vmm.setPage Vmm.log at still
  dsimp only at still
  rw [Function.update_self] at still
  cases still

theorem undone_others {a : Nat}
    (other : a ≠ pageAddress (s.dir.tables (pagedirIndex va)) (pagetblIndex va)) :
    ((s.allocatePage va).freePage va).entries a = s.entries a := by
  have made := allocatePage_absent table absent
  have tables : (s.allocatePage va).dir = s.dir := by
    rw [made]
    exact mapPage_dir _ _ _
  rw [freePage_eq (allocatePage_present table absent lowest), tables]
  unfold Vmm.setPage Vmm.log
  dsimp only
  rw [Function.update_of_ne other, made, mapPage_entries, Function.update_of_ne other]

end AbsentPage

/-- free_page passes the 20-bit field to kfree_page_frame, which takes the distance
to `placementaddr`: right only for a frame below 1 MiB and an address that is not
page aligned. -/
theorem undoes_iff (s : Vmm) (va i : Nat) (low : s.pmm.placementaddr < 2 ^ 32)
    (table : s.dir.tables (pagedirIndex va) ≠ 0) (absent : ¬ PagePresent s va)
    (lowest : findClear s.pmm.bitmap frameLimit 0 = some i) :
    Undoes s va s.pmm.kallocPageFrame.2 ↔
      (s.pmm.placementaddr / 4096 + i + 1) % 2 ^ 20 < 256 ∧ s.pmm.placementaddr % 4096 ≠ 0 := by
  obtain ⟨_, inside, clear, _⟩ := findClear_some _ _ _ _ lowest
  have field := allocatePage_field table absent lowest
  have bitmap := undone_bitmap table absent lowest
  have index := freed_index low inside
  have address := frameAddress_mod s.pmm.placementaddr i
  rw [kalloc_lowest lowest]
  dsimp only
  generalize frameAddress s.pmm.placementaddr i = f at field bitmap index address
  constructor
  · rintro ⟨_, freed, restored, _⟩
    rw [field] at freed
    rw [bitmap, freed] at restored
    have cleared : isset (clearbit (setbit s.pmm.bitmap i)
        (wsub f s.pmm.placementaddr / 4096)) i = false := by
      rw [restored]
      exact clear
    rw [isset_clearbit, isset_setbit] at cleared
    have same : wsub f s.pmm.placementaddr / 4096 = i := by
      by_contra other
      simp [Ne.symm other] at cleared
    exact ⟨by omega, index.mp same⟩
  · rintro ⟨small, unaligned⟩
    have fits : f % 2 ^ 20 = f := by omega
    rw [fits, index.mpr unaligned, clearbit_setbit clear] at bitmap
    exact ⟨undone_absent table absent lowest, field.trans fits, bitmap,
      fun a other => undone_others table absent lowest other⟩

/-- kfree_page_frame is called with 0x2000, not with 0x302000. -/
theorem truncated_address_freed : oneMapping.pmm.kallocPageFrame.2 = 0x302000 ∧
    ¬ PagePresent oneMapping 0x2000 ∧ ¬ Undoes oneMapping 0x2000 0x302000 := by
  have field : ((oneMapping.allocatePage 0x2000).entryOf 0x2000).frame.toNat = 0x2000 := by
    decide +kernel
  refine ⟨by decide +kernel, fun present => absurd present.2 (by decide), fun undoes => ?_⟩
  have freed := undoes.freed
  rw [field] at freed
  exact absurd freed (by decide)

theorem second_page_undoes_iff : Undoes oneMapping 0x2000 oneMapping.pmm.kallocPageFrame.2 ↔
    (0x301000 / 4096 + 0 + 1) % 2 ^ 20 < 256 ∧ 0x301000 % 4096 ≠ 0 :=
  undoes_iff oneMapping 0x2000 0 (by decide) (by decide) (fun present => absurd present.2 (by decide))
    (by decide +kernel)

end RiseOS
