import RiseOS.Paging.Tables

/-! Which pages stay present while a region that lies in two directory slots is
mapped and unmapped. -/
namespace RiseOS
open Words

theorem kallocPageFrame_placementaddr (s : Pmm) : s.kallocPageFrame.1.placementaddr = s.placementaddr := by
  rcases kallocPageFrame_cases s with ⟨_, _, _, _, _, result⟩ | ⟨_, _, result⟩
  · rw [result]
  · rw [result]
    rfl

theorem Placed.congr {s t : Vmm} (placed : Placed s) (dir : t.dir = s.dir)
    (same : t.pmm.placementaddr = s.pmm.placementaddr) : Placed t := by
  refine ⟨?_, ?_, ?_⟩
  · intro i hi
    rw [dir]
    exact placed.coherent i hi
  · intro i hi
    rw [dir, same]
    exact placed.below i hi
  · intro i j hi hj
    rw [dir]
    exact placed.apart i j hi hj

def tableCount (s : Vmm) (i : Nat) : Nat := if s.dir.tables i = 0 then 0 else 1

/-- Tables are only made for `first` and the slot behind it, from `base` on. -/
structure TwoSlots (first base : Nat) (s : Vmm) : Prop where
  placed : Placed s
  positive : 0 < s.pmm.placementaddr
  budget : s.pmm.placementaddr ≤ base + 4096 * (tableCount s first + tableCount s (first + 1))
  aligned : base % 4096 = 0
  room : base + 0x402000 ≤ 2 ^ 32

def InTwoSlots (first va : Nat) : Prop := pagedirIndex va = first ∨ pagedirIndex va = first + 1

section TwoSlots

variable {first base : Nat} {s : Vmm} (inv : TwoSlots first base s)
include inv

theorem TwoSlots.congr {t : Vmm} (dir : t.dir = s.dir)
    (same : t.pmm.placementaddr = s.pmm.placementaddr) : TwoSlots first base t := by
  refine ⟨inv.placed.congr dir same, ?_, ?_, inv.aligned, inv.room⟩
  · rw [same]
    exact inv.positive
  · unfold tableCount
    rw [same, dir]
    exact inv.budget

theorem TwoSlots.word : s.pmm.placementaddr < 2 ^ 32 := by
  have budget := inv.budget
  have room := inv.room
  unfold tableCount at budget
  split at budget <;> split at budget <;> omega

variable {i : Nat} (near : i = first ∨ i = first + 1) (null : s.dir.tables i = 0)
include near null

theorem TwoSlots.tableRoom : TableRoom s := by
  have budget := inv.budget
  have room := inv.room
  have aligned := inv.aligned
  refine ⟨inv.positive, ?_⟩
  unfold tableCount at budget
  unfold pageUp
  rcases near with rfl | rfl
  · rw [if_pos null] at budget
    split at budget <;> omega
  · rw [if_pos null] at budget
    split at budget <;> omega

theorem TwoSlots.createTable : TwoSlots first base (s.createTable i) := by
  have space := inv.tableRoom near null
  obtain ⟨fresh, bumped, _, nonzero⟩ := space.newTable_eq i
  have budget := inv.budget
  have aligned := inv.aligned
  have own := createTable_own s i
  have made : tableCount (s.createTable i) first + tableCount (s.createTable i) (first + 1) =
      tableCount s first + tableCount s (first + 1) + 1 := by
    unfold tableCount
    rcases near with rfl | rfl
    · rw [createTable_other s i (i + 1) (by omega), own, if_neg nonzero, if_pos null]
      omega
    · rw [createTable_other s (first + 1) first (by omega), own, if_neg nonzero, if_pos null]
  refine ⟨createTable_placed space.fits inv.placed, ?_, ?_, aligned, inv.room⟩
  · omega
  · rw [made, bumped, fresh]
    unfold pageUp
    omega

end TwoSlots

section PageOperations

variable {first base : Nat} {s : Vmm} {va : Nat}

theorem mapPage_present (separate : Separate s) (low : s.pmm.placementaddr < 2 ^ 32) (word : va < 2 ^ 32)
    (table : s.dir.tables (pagedirIndex va) ≠ 0) {vb : Nat} (word' : vb < 2 ^ 32)
    (present : vb / 4096 = va / 4096 ∨ PagePresent s vb) :
    PagePresent (s.mapPage (s.dir.tables (pagedirIndex va)) (pagetblIndex va)) vb := by
  have tableB : s.dir.tables (pagedirIndex vb) ≠ 0 := by
    rcases present with page | present
    · rw [(slot_of_page page).1]
      exact table
    · exact present.1
  refine ⟨tableB, ?_⟩
  rw [mapPage_entry separate low word table vb word' tableB]
  split
  · rfl
  · rename_i other
    exact (present.resolve_left other).2

theorem TwoSlots.allocatePage (inv : TwoSlots first base s) (word : va < 2 ^ 32)
    (near : InTwoSlots first va) : TwoSlots first base (s.allocatePage va) ∧
      ∀ vb, vb < 2 ^ 32 → vb / 4096 = va / 4096 ∨ PagePresent s vb →
        PagePresent (s.allocatePage va) vb := by
  obtain ⟨inv', table, kept⟩ : TwoSlots first base (s.withTable (pagedirIndex va)) ∧
      (s.withTable (pagedirIndex va)).dir.tables (pagedirIndex va) ≠ 0 ∧
      ∀ vb, vb < 2 ^ 32 → PagePresent s vb → PagePresent (s.withTable (pagedirIndex va)) vb := by
    unfold Vmm.withTable
    split
    · rename_i null
      have space := inv.tableRoom near null
      refine ⟨inv.createTable near null, ?_, ?_⟩
      · rw [createTable_own]
        exact (space.newTable_eq (pagedirIndex va)).2.2.2
      · intro vb word' present
        have other : pagedirIndex vb ≠ pagedirIndex va := fun same => present.1 (same ▸ null)
        refine ⟨?_, ?_⟩
        · rw [createTable_other s _ _ other]
          exact present.1
        · rw [(createTable_page space inv.placed.separate vb word').1 other present.1]
          exact present.2
    · rename_i table
      exact ⟨inv, table, fun _ _ present => present⟩
  rw [allocatePage_eq]
  generalize s.withTable (pagedirIndex va) = t at inv' table kept
  split
  · rename_i entry
    refine ⟨inv', ?_⟩
    rintro vb word' (page | present)
    · obtain ⟨slot, index⟩ := slot_of_page page
      unfold PagePresent Vmm.entryOf
      rw [slot, index]
      exact ⟨table, entry⟩
    · exact kept vb word' present
  · refine ⟨inv'.congr (mapPage_dir t _ _) (kallocPageFrame_placementaddr t.pmm), ?_⟩
    intro vb word' present
    exact mapPage_present inv'.placed.separate inv'.word word table word' (present.imp_right (kept vb word'))

theorem TwoSlots.allocatePages (vas : List Nat) (s : Vmm) (inv : TwoSlots first base s)
    (words : ∀ va ∈ vas, va < 2 ^ 32) (near : ∀ va ∈ vas, InTwoSlots first va) :
    TwoSlots first base (vas.foldl Vmm.allocatePage s) ∧
      ∀ vb, vb < 2 ^ 32 → (∃ va ∈ vas, vb / 4096 = va / 4096) ∨ PagePresent s vb →
        PagePresent (vas.foldl Vmm.allocatePage s) vb := by
  induction vas generalizing s with
  | nil =>
    refine ⟨inv, ?_⟩
    rintro vb _ (⟨va, none, _⟩ | present)
    · cases none
    · exact present
  | cons va rest ih =>
    obtain ⟨inv', here⟩ := inv.allocatePage (words va List.mem_cons_self) (near va List.mem_cons_self)
    obtain ⟨inv'', later⟩ := ih (s.allocatePage va) inv'
      (fun w hw => words w (List.mem_cons_of_mem va hw))
      (fun w hw => near w (List.mem_cons_of_mem va hw))
    refine ⟨inv'', ?_⟩
    rintro vb word' (⟨w, hw, page⟩ | present)
    · rcases List.mem_cons.mp hw with rfl | hw
      · exact later vb word' (.inr (here vb word' (.inl page)))
      · exact later vb word' (.inl ⟨w, hw, page⟩)
    · exact later vb word' (.inr (here vb word' (.inr present)))

theorem freePage_present (placed : Placed s) (low : s.pmm.placementaddr < 2 ^ 32) (word : va < 2 ^ 32)
    {vb : Nat} (word' : vb < 2 ^ 32) (other : vb / 4096 ≠ va / 4096) (present : PagePresent s vb) :
    PagePresent (s.freePage va) vb := by
  refine ⟨?_, ?_⟩
  · rw [freePage_tables]
    exact present.1
  · unfold Vmm.entryOf
    rw [freePage_tables]
    unfold Vmm.freePage
    dsimp only
    split
    · exact present.2
    · rename_i table
      split
      · exact present.2
      · have apart := entry_apart placed.separate low word' word other present.1 table
        unfold Vmm.page Vmm.setPage Vmm.log
        dsimp only
        rw [Function.update_of_ne apart]
        exact present.2

theorem TwoSlots.freePages (vas : List Nat) (s : Vmm) (inv : TwoSlots first base s)
    (words : ∀ va ∈ vas, va < 2 ^ 32) : TwoSlots first base (vas.foldl Vmm.freePage s) ∧
      ∀ vb, vb < 2 ^ 32 → (∀ va ∈ vas, vb / 4096 ≠ va / 4096) → PagePresent s vb →
        PagePresent (vas.foldl Vmm.freePage s) vb := by
  induction vas generalizing s with
  | nil => exact ⟨inv, fun vb _ _ present => present⟩
  | cons va rest ih =>
    have inv' := inv.congr (freePage_tables s va) (freePage_pmm s va)
    obtain ⟨inv'', later⟩ := ih (s.freePage va) inv' (fun w hw => words w (List.mem_cons_of_mem va hw))
    refine ⟨inv'', ?_⟩
    intro vb word' others present
    exact later vb word' (fun w hw => others w (List.mem_cons_of_mem va hw))
      (freePage_present inv.placed inv.word (words va List.mem_cons_self) word'
        (others va List.mem_cons_self) present)

end PageOperations

end RiseOS
