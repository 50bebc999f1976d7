import Mathlib.Data.Finset.Card
import Mathlib.Order.Interval.Finset.Nat
import RiseOS.Paging.Install

/-! The region loops: when they end, and what a whole allocate_region maps. -/
namespace RiseOS
open Words

/-! ### Termination -/

/-- The addresses for which the loop calls its body, in order. -/
def regionVisits : (fuel start stop : Nat) → List Nat
  | 0, _, _ => []
  | fuel + 1, start, stop =>
      if start ≤ stop then start :: regionVisits fuel (wrap (start + pageSize)) stop else []

/-- The loop ends after some number of rounds. Each page that it has handled is
one of the region, and no page was handled twice. -/
def EndsHandlingOnce (body : Vmm → Nat → Vmm) (s : Vmm) (startVa endVa : Nat) : Prop :=
  ∃ fuel t, regionLoop body fuel (startVa &&& 0xfffff000) (endVa &&& 0xfffff000) s = some t ∧
    t = (regionVisits fuel (startVa &&& 0xfffff000) (endVa &&& 0xfffff000)).foldl body s ∧
    (regionVisits fuel (startVa &&& 0xfffff000) (endVa &&& 0xfffff000)).Nodup ∧
    ∀ va ∈ regionVisits fuel (startVa &&& 0xfffff000) (endVa &&& 0xfffff000),
      va % 4096 = 0 ∧ startVa &&& 0xfffff000 ≤ va ∧ va ≤ endVa &&& 0xfffff000

theorem regionLoop_visits (body : Vmm → Nat → Vmm) (fuel start stop : Nat) (s t : Vmm)
    (ended : regionLoop body fuel start stop s = some t) :
    t = (regionVisits fuel start stop).foldl body s := by
  induction fuel generalizing start s with
  | zero => cases ended
  | succ fuel ih =>
    rw [regionLoop] at ended
    rw [regionVisits]
    split at ended
    · rename_i inside
      rw [if_pos inside, List.foldl_cons]
      exact ih _ _ ended
    · rename_i outside
      rw [if_neg outside]
      exact (Option.some.inj ended).symm

/-- Below the topmost page the address grows with every round, so a page handled
later is a higher one. -/
theorem regionVisits_ascend (fuel start stop : Nat) (below : stop < 0xFFFFF000)
    (aligned : start % 4096 = 0) :
    (regionVisits fuel start stop).Pairwise (· < ·) ∧
      ∀ va ∈ regionVisits fuel start stop, va % 4096 = 0 ∧ start ≤ va ∧ va ≤ stop := by
  induction fuel generalizing start with
  | zero => exact ⟨List.Pairwise.nil, fun va none => absurd none List.not_mem_nil⟩
  | succ fuel ih =>
    rw [regionVisits]
    split
    · rename_i inside
      have room : start + 4096 < 2 ^ 32 := by omega
      have next : wrap (start + pageSize) = start + 4096 := wrap_eq room
      obtain ⟨ascend, later⟩ := ih (start + 4096) (by omega)
      rw [next]
      refine ⟨List.pairwise_cons.mpr ⟨fun va member => ?_, ascend⟩, fun va member => ?_⟩
      · have := later va member
        omega
      · rcases List.mem_cons.mp member with rfl | member
        · exact ⟨aligned, Nat.le_refl _, inside⟩
        · have := later va member
          omega
    · exact ⟨List.Pairwise.nil, fun va none => absurd none List.not_mem_nil⟩

theorem endsHandlingOnce_iff (body : Vmm → Nat → Vmm) (s : Vmm) (startVa endVa : Nat)
    (hs : startVa < 2 ^ 32) (he : endVa < 2 ^ 32) :
    EndsHandlingOnce body s startVa endVa ↔ endVa < 0xFFFFF000 := by
  constructor
  · rintro ⟨fuel, t, ended, _⟩
    by_contra top
    have last : endVa &&& 0xfffff000 = 0xFFFFF000 := by
      rw [and_pageMask he]
      omega
    have word : startVa &&& 0xfffff000 < 2 ^ 32 ∧ (startVa &&& 0xfffff000) % 4096 = 0 := by
      rw [and_pageMask hs]
      omega
    rw [last, regionLoop_top body fuel _ s word.1 word.2] at ended
    cases ended
  · intro below
    have ended := region_eq body s startVa endVa hs he
    rw [if_pos below] at ended
    have aligned : (startVa &&& 0xfffff000) % 4096 = 0 := by
      rw [and_pageMask hs]
      omega
    have stop : endVa &&& 0xfffff000 < 0xFFFFF000 := by
      rw [and_pageMask he]
      omega
    obtain ⟨ascend, range⟩ := regionVisits_ascend regionFuel _ _ stop aligned
    exact ⟨regionFuel, _, ended, regionLoop_visits body _ _ _ s _ ended,
      ascend.imp Nat.ne_of_lt, range⟩

/-- Both region functions end exactly when the region does not end in the
topmost page. -/
theorem region_terminates_iff (s : Vmm) (startVa endVa : Nat) (hs : startVa < 2 ^ 32)
    (he : endVa < 2 ^ 32) :
    (EndsHandlingOnce Vmm.allocatePage s startVa endVa ↔ endVa < 0xFFFFF000) ∧
      (EndsHandlingOnce Vmm.freePage s startVa endVa ↔ endVa < 0xFFFFF000) :=
  ⟨endsHandlingOnce_iff Vmm.allocatePage s startVa endVa hs he,
    endsHandlingOnce_iff Vmm.freePage s startVa endVa hs he⟩

theorem low_region_terminates :
    EndsHandlingOnce Vmm.allocatePage oneMapping 0x1000 0x3FFF ∧
      EndsHandlingOnce Vmm.freePage oneMapping 0x1000 0x3FFF := by
  have ends := region_terminates_iff oneMapping 0x1000 0x3FFF (by decide) (by decide)
  exact ⟨ends.1.mpr (by decide), ends.2.mpr (by decide)⟩

/-- One page, the topmost: its successor is page 0, which is not above it. -/
theorem topmost_page_never_ends : ¬ EndsHandlingOnce Vmm.freePage oneMapping 0xFFFFF000 0xFFFFF000 ∧
    ¬ EndsHandlingOnce Vmm.allocatePage oneMapping 0xFFFFF000 0xFFFFF000 ∧
    ∀ fuel, regionLoop Vmm.allocatePage fuel 0xFFFFF000 0xFFFFF000 oneMapping = none := by
  refine ⟨?_, ?_, fun fuel => regionLoop_top _ fuel _ _ (by decide) (by decide)⟩
  · rw [endsHandlingOnce_iff _ _ _ _ (by decide) (by decide)]
    decide
  · rw [endsHandlingOnce_iff _ _ _ _ (by decide) (by decide)]
    decide

/-! ### What is mapped -/

/-- The pages `vas` were mapped: they and the pages present before are present
now, no present entry has changed, and neither has any other directory slot. -/
structure MapsPages (vas : List Nat) (s t : Vmm) : Prop where
  present : ∀ vb, vb < 2 ^ 32 →
    (PagePresent t vb ↔ PagePresent s vb ∨ ∃ va ∈ vas, vb / 4096 = va / 4096)
  kept : ∀ vb, vb < 2 ^ 32 → PagePresent s vb → t.entryOf vb = s.entryOf vb
  slots : ∀ i, (∀ va ∈ vas, pagedirIndex va ≠ i) →
    t.dir.tables i = s.dir.tables i ∧ t.dir.tablesPhysical i = s.dir.tablesPhysical i

theorem MapsPages.nil (s : Vmm) : MapsPages [] s s :=
  ⟨fun vb _ => by simp, fun _ _ _ => rfl, fun _ _ => ⟨rfl, rfl⟩⟩

theorem MapsPages.cons {va : Nat} {rest : List Nat} {s t u : Vmm} (first : MapsPages [va] s t)
    (later : MapsPages rest t u) : MapsPages (va :: rest) s u := by
  refine ⟨fun vb word => ?_, fun vb word present => ?_, fun i others => ?_⟩
  · rw [later.present vb word, first.present vb word]
    simp [or_assoc]
  · rw [later.kept vb word ((first.present vb word).mpr (.inl present)), first.kept vb word present]
  · have here := first.slots i fun w hw => others w (List.mem_cons.mpr (.inl (List.mem_singleton.mp hw)))
    have there := later.slots i fun w hw => others w (List.mem_cons_of_mem va hw)
    exact ⟨there.1.trans here.1, there.2.trans here.2⟩

/-- The directory slots from `first` to `last` that have no table yet. -/
def missingTables (s : Vmm) (first last : Nat) : Finset Nat :=
  (Finset.Icc first last).filter fun i => s.dir.tables i = 0

/-- The tables that are still to be made fit behind `placementaddr`, with the
4 MiB that are cleared for the last of them. -/
structure TablesFit (first last : Nat) (s : Vmm) : Prop where
  separate : Separate s
  positive : 0 < s.pmm.placementaddr
  word : s.pmm.placementaddr < 2 ^ 32
  room : (missingTables s first last).Nonempty →
    pageUp s.pmm.placementaddr + (missingTables s first last).card * 4096 + 0x3FF000 ≤ 2 ^ 32

section AllocatePage

variable {first last : Nat} {s : Vmm} (fit : TablesFit first last s)
include fit

theorem TablesFit.tableRoom {i : Nat} (slot : first ≤ i ∧ i ≤ last) (null : s.dir.tables i = 0) :
    TableRoom s ∧ i ∈ missingTables s first last := by
  have missing : i ∈ missingTables s first last :=
    Finset.mem_filter.mpr ⟨Finset.mem_Icc.mpr slot, null⟩
  have room := fit.room ⟨i, missing⟩
  have some : 0 < (missingTables s first last).card := Finset.card_pos.mpr ⟨i, missing⟩
  exact ⟨⟨fit.positive, by omega⟩, missing⟩

theorem TablesFit.congr {t : Vmm} (dir : t.dir = s.dir)
    (same : t.pmm.placementaddr = s.pmm.placementaddr) : TablesFit first last t := by
  have missing : missingTables t first last = missingTables s first last := by
    unfold missingTables
    rw [dir]
  refine ⟨⟨?_, ?_, ?_⟩, same ▸ fit.positive, same ▸ fit.word, ?_⟩
  · rw [dir]
    exact fit.separate.aligned
  · rw [dir, same]
    exact fit.separate.below
  · rw [dir]
    exact fit.separate.apart
  · rw [missing, same]
    exact fit.room

theorem TablesFit.createTable {i : Nat} (slot : first ≤ i ∧ i ≤ last) (null : s.dir.tables i = 0) :
    TablesFit first last (s.createTable i) := by
  obtain ⟨space, missing⟩ := fit.tableRoom slot null
  obtain ⟨fresh, bumped, above, nonzero⟩ := space.newTable_eq i
  have room := fit.room ⟨i, missing⟩
  have fewer : missingTables (s.createTable i) first last =
      (missingTables s first last).erase i := by
    ext j
    simp only [missingTables, Finset.mem_filter, Finset.mem_erase]
    by_cases new : j = i
    · simp [new, createTable_own, nonzero]
    · simp [new, createTable_other s i j new]
  have count := Finset.card_erase_of_mem missing
  have some : 0 < (missingTables s first last).card := Finset.card_pos.mpr ⟨i, missing⟩
  refine ⟨createTable_separate space.fits fit.separate, by omega, by omega, fun _ => ?_⟩
  have next : pageUp (pageUp s.pmm.placementaddr + 4096) = pageUp s.pmm.placementaddr + 4096 := by
    unfold pageUp
    omega
  obtain ⟨n, card⟩ := Nat.exists_eq_add_of_lt some
  rw [card] at room count
  rw [fewer, count, bumped, fresh, next]
  omega

theorem withTable_maps {va : Nat} (slot : first ≤ pagedirIndex va ∧ pagedirIndex va ≤ last) :
    TablesFit first last (s.withTable (pagedirIndex va)) ∧
      (s.withTable (pagedirIndex va)).dir.tables (pagedirIndex va) ≠ 0 ∧
      (∀ vb, vb < 2 ^ 32 →
        (PagePresent (s.withTable (pagedirIndex va)) vb ↔ PagePresent s vb) ∧
        (PagePresent s vb → (s.withTable (pagedirIndex va)).entryOf vb = s.entryOf vb)) ∧
      ∀ i, pagedirIndex va ≠ i →
        (s.withTable (pagedirIndex va)).dir.tables i = s.dir.tables i ∧
        (s.withTable (pagedirIndex va)).dir.tablesPhysical i = s.dir.tablesPhysical i := by
  unfold Vmm.withTable
  split
  · rename_i null
    obtain ⟨space, _⟩ := fit.tableRoom slot null
    obtain ⟨_, _, _, nonzero⟩ := space.newTable_eq (pagedirIndex va)
    have page := createTable_page (i := pagedirIndex va) space fit.separate
    refine ⟨fit.createTable slot null, ?_, fun vb word => ⟨⟨?_, ?_⟩, ?_⟩, fun i other => ⟨?_, ?_⟩⟩
    · rw [createTable_own]
      exact nonzero
    · intro present
      by_cases new : pagedirIndex vb = pagedirIndex va
      · rw [PagePresent, (page vb word).2 new] at present
        exact absurd present.2 (by decide)
      · rw [PagePresent, createTable_other s _ _ new] at present
        exact ⟨present.1, (page vb word).1 new present.1 ▸ present.2⟩
    · intro present
      have other : pagedirIndex vb ≠ pagedirIndex va := fun same => present.1 (same ▸ null)
      rw [PagePresent, createTable_other s _ _ other, (page vb word).1 other present.1]
      exact present
    · intro present
      exact (page vb word).1 (fun same => present.1 (same ▸ null)) present.1
    · exact createTable_other s _ i fun h => other h.symm
    · rw [createTable_physical, Function.update_of_ne fun h => other h.symm]
  · rename_i table
    exact ⟨fit, table, fun vb _ => ⟨Iff.rfl, fun _ => rfl⟩, fun _ _ => ⟨rfl, rfl⟩⟩

theorem allocatePage_maps {va : Nat} (word : va < 2 ^ 32)
    (slot : first ≤ pagedirIndex va ∧ pagedirIndex va ≤ last) :
    TablesFit first last (s.allocatePage va) ∧ MapsPages [va] s (s.allocatePage va) := by
  obtain ⟨fit', table, pages, others⟩ := withTable_maps fit slot
  have slots : ∀ i, (∀ w ∈ [va], pagedirIndex w ≠ i) → pagedirIndex va ≠ i :=
    fun i away => away va (List.mem_singleton.mpr rfl)
  rw [allocatePage_eq]
  generalize s.withTable (pagedirIndex va) = t at fit' table pages others
  split
  · rename_i entry
    refine ⟨fit', fun vb word' => ?_, fun vb word' => (pages vb word').2, fun i away =>
      others i (slots i away)⟩
    rw [(pages vb word').1]
    simp only [List.mem_singleton, exists_eq_left]
    refine ⟨.inl, ?_⟩
    rintro (present | page)
    · exact present
    · obtain ⟨same, index⟩ := slot_of_page page
      refine (pages vb word').1.mp ?_
      unfold PagePresent Vmm.entryOf
      rw [same, index]
      exact ⟨table, entry⟩
  · rename_i entry
    have mapped := mapPage_entry fit'.separate fit'.word word table
    refine ⟨fit'.congr (mapPage_dir t _ _) (kallocPageFrame_placementaddr t.pmm),
      fun vb word' => ?_, fun vb word' present => ?_, fun i away => others i (slots i away)⟩
    · simp only [List.mem_singleton, exists_eq_left]
      constructor
      · rintro ⟨tableB, present⟩
        rw [mapPage_dir] at tableB
        rw [mapped vb word' tableB] at present
        by_cases page : vb / 4096 = va / 4096
        · exact .inr page
        · rw [if_neg page] at present
          exact .inl ((pages vb word').1.mp ⟨tableB, present⟩)
      · intro present
        exact mapPage_present fit'.separate fit'.word word table word'
          (present.symm.imp_right (pages vb word').1.mpr)
    · have before := (pages vb word').1.mpr present
      have other : vb / 4096 ≠ va / 4096 := by
        intro page
        obtain ⟨same, index⟩ := slot_of_page page
        have here := before.2
        unfold Vmm.entryOf at here entry
        rw [same, index] at here
        exact entry here
      rw [mapped vb word' before.1, if_neg other, (pages vb word').2 present]

end AllocatePage

theorem allocatePages_map {first last : Nat} (vas : List Nat) (s : Vmm)
    (fit : TablesFit first last s) (words : ∀ va ∈ vas, va < 2 ^ 32)
    (slots : ∀ va ∈ vas, first ≤ pagedirIndex va ∧ pagedirIndex va ≤ last) :
    TablesFit first last (vas.foldl Vmm.allocatePage s) ∧
      MapsPages vas s (vas.foldl Vmm.allocatePage s) := by
  induction vas generalizing s with
  | nil => exact ⟨fit, MapsPages.nil s⟩
  | cons va rest ih =>
    obtain ⟨fit', first⟩ := allocatePage_maps fit (words va List.mem_cons_self)
      (slots va List.mem_cons_self)
    obtain ⟨fit'', later⟩ := ih (s.allocatePage va) fit'
      (fun w hw => words w (List.mem_cons_of_mem va hw))
      (fun w hw => slots w (List.mem_cons_of_mem va hw))
    exact ⟨fit'', first.cons later⟩

theorem allocatePage_of_present {s : Vmm} {va : Nat} (present : PagePresent s va) :
    s.allocatePage va = s := by
  have table : s.withTable (pagedirIndex va) = s := if_neg present.1
  rw [allocatePage_eq, table, if_pos present.2]

/-- The base of the page of `va` lies in the region, ends included. -/
def InRegion (startVa endVa va : Nat) : Prop :=
  startVa &&& 0xFFFFF000 ≤ va &&& 0xFFFFF000 ∧ va &&& 0xFFFFF000 ≤ endVa &&& 0xFFFFF000

/-- allocate_region has made the pages of the region present and nothing else;
what was present is as it was, so the same call again changes nothing. -/
structure MapsExactly (s : Vmm) (startVa endVa : Nat) (t : Vmm) : Prop where
  returns : s.allocateRegion startVa endVa = some t
  present : ∀ va, va < 2 ^ 32 → (PagePresent t va ↔ PagePresent s va ∨ InRegion startVa endVa va)
  kept : ∀ va, va < 2 ^ 32 → PagePresent s va → t.entryOf va = s.entryOf va
  again : t.allocateRegion startVa endVa = some t
  slots : ∀ i, (∀ va, va < 2 ^ 32 → InRegion startVa endVa va → pagedirIndex va ≠ i) →
    t.dir.tables i = s.dir.tables i ∧ t.dir.tablesPhysical i = s.dir.tablesPhysical i

theorem inRegion_iff {startVa endVa va : Nat} (hs : startVa < 2 ^ 32) (he : endVa < 2 ^ 32)
    (hv : va < 2 ^ 32) : InRegion startVa endVa va ↔
      ∃ w ∈ regionPages startVa endVa, va / 4096 = w / 4096 := by
  unfold InRegion
  rw [and_pageMask hs, and_pageMask he, and_pageMask hv]
  constructor
  · rintro ⟨lower, upper⟩
    exact ⟨va / 4096 * 4096, (mem_regionPages _ startVa endVa).mpr (by omega), by omega⟩
  · rintro ⟨w, member, page⟩
    have := (mem_regionPages w startVa endVa).mp member
    omega

theorem allocate_region_maps_exactly (s : Vmm) (startVa endVa : Nat) (ordered : startVa ≤ endVa)
    (below : endVa < 0xFFFFF000)
    (fit : TablesFit (pagedirIndex startVa) (pagedirIndex endVa) s) :
    ∃ t, MapsExactly s startVa endVa t := by
  have hs : startVa < 2 ^ 32 := by omega
  have he : endVa < 2 ^ 32 := by omega
  have words : ∀ va ∈ regionPages startVa endVa, va < 2 ^ 32 := by
    intro va member
    have := (mem_regionPages va startVa endVa).mp member
    omega
  have slots : ∀ va ∈ regionPages startVa endVa,
      pagedirIndex startVa ≤ pagedirIndex va ∧ pagedirIndex va ≤ pagedirIndex endVa := by
    intro va member
    have := (mem_regionPages va startVa endVa).mp member
    simp only [pagedirIndex_eq]
    omega
  obtain ⟨_, maps⟩ := allocatePages_map (regionPages startVa endVa) s fit words slots
  have call : ∀ u : Vmm, u.allocateRegion startVa endVa =
      some ((regionPages startVa endVa).foldl Vmm.allocatePage u) := by
    intro u
    rw [Vmm.allocateRegion, region_eq Vmm.allocatePage u startVa endVa hs he, if_pos below]
  refine ⟨_, call s, fun va word => ?_, maps.kept, ?_, fun i away => maps.slots i ?_⟩
  · rw [maps.present va word, inRegion_iff hs he word]
  · rw [call]
    refine congrArg some (foldl_keeps Vmm.allocatePage (· = _) _ (fun u va member same => ?_) _ rfl)
    rw [same]
    exact allocatePage_of_present ((maps.present va (words va member)).mpr (.inr ⟨va, member, rfl⟩))
  · intro va member
    exact away va (words va member) ((inRegion_iff hs he (words va member)).mpr ⟨va, member, rfl⟩)

/-- The first pages behind one table, over the 4 MiB border. -/
theorem region_over_border_mapped : ∃ t, MapsExactly oneMapping 0x1000 0x400FFF t := by
  refine allocate_region_maps_exactly oneMapping 0x1000 0x400FFF (by decide) (by decide)
    ⟨oneMapping_placed.separate, by decide, by decide, fun _ => ?_⟩
  have few : (missingTables oneMapping 0 1).card ≤ 2 := Finset.card_filter_le _ _
  have base : pageUp oneMapping.pmm.placementaddr = 0x301000 := by decide
  have slots : pagedirIndex 0x1000 = 0 ∧ pagedirIndex 0x400FFF = 1 := by decide
  rw [slots.1, slots.2, base]
  generalize (missingTables oneMapping 0 1).card = n at few ⊢
  omega

end RiseOS
