import RiseOS.Paging.Effects

/-! Page tables in their places: a new table lies behind the others, and the
entry of a page has an address of its own. -/
namespace RiseOS
open Words

/-- Page-aligned tables below `placementaddr`, one to a slot, whatever the
physical entries say. -/
structure Separate (s : Vmm) : Prop where
  aligned : ∀ i, i < 1024 → s.dir.tables i ≠ 0 → s.dir.tables i % 4096 = 0
  below : ∀ i, i < 1024 → s.dir.tables i ≠ 0 → s.dir.tables i + 4096 ≤ s.pmm.placementaddr
  apart : ∀ i j, i < 1024 → j < 1024 → s.dir.tables i ≠ 0 → s.dir.tables i = s.dir.tables j → i = j

/-- Tables lie below `placementaddr`, one to a slot. -/
structure Placed (s : Vmm) : Prop where
  coherent : Coherent s
  below : ∀ i, i < 1024 → s.dir.tables i ≠ 0 → s.dir.tables i + 4096 ≤ s.pmm.placementaddr
  apart : ∀ i j, i < 1024 → j < 1024 → s.dir.tables i ≠ 0 → s.dir.tables i = s.dir.tables j → i = j

/-- dumballoc hands out a page table without running over the end of the words. -/
structure BlockFits (s : Vmm) : Prop where
  positive : 0 < s.pmm.placementaddr
  room : pageUp s.pmm.placementaddr + sizeofPageTable < 2 ^ 32

structure TableRoom (s : Vmm) : Prop where
  positive : 0 < s.pmm.placementaddr
  room : pageUp s.pmm.placementaddr + 0x400000 ≤ 2 ^ 32

theorem TableRoom.fits {s : Vmm} (space : TableRoom s) : BlockFits s := by
  obtain ⟨positive, room⟩ := space
  refine ⟨positive, ?_⟩
  rw [sizeofPageTable]
  omega

theorem entry_lt (va : Nat) : pagetblIndex va < 1024 := by
  rw [pagetblIndex_eq]
  omega

theorem page_split {va vb : Nat} (slot : pagedirIndex va = pagedirIndex vb)
    (entry : pagetblIndex va = pagetblIndex vb) : va / 4096 = vb / 4096 := by
  rw [pagedirIndex_eq, pagedirIndex_eq] at slot
  rw [pagetblIndex_eq, pagetblIndex_eq] at entry
  omega

theorem slot_of_page {va vb : Nat} (page : va / 4096 = vb / 4096) :
    pagedirIndex va = pagedirIndex vb ∧ pagetblIndex va = pagetblIndex vb := by
  simp only [pagedirIndex_eq, pagetblIndex_eq, page, and_true]
  omega

theorem table_aligned {s : Vmm} (coherent : Coherent s) {i : Nat} (slot : i < 1024)
    (table : s.dir.tables i ≠ 0) : s.dir.tables i % 4096 = 0 := by
  obtain ⟨same, points⟩ := coherent i slot
  rw [← points (same.mp table), Nat.shiftLeft_eq]
  omega

theorem Placed.separate {s : Vmm} (placed : Placed s) : Separate s :=
  ⟨fun _ hi table => table_aligned placed.coherent hi table, placed.below, placed.apart⟩

theorem entry_apart {s : Vmm} (separate : Separate s) (word : s.pmm.placementaddr < 2 ^ 32)
    {va vb : Nat} (ha : va < 2 ^ 32) (hb : vb < 2 ^ 32) (page : va / 4096 ≠ vb / 4096)
    (ta : s.dir.tables (pagedirIndex va) ≠ 0) (tb : s.dir.tables (pagedirIndex vb) ≠ 0) :
    pageAddress (s.dir.tables (pagedirIndex va)) (pagetblIndex va) ≠
      pageAddress (s.dir.tables (pagedirIndex vb)) (pagetblIndex vb) := by
  have belowA := separate.below _ (slot_lt ha) ta
  have belowB := separate.below _ (slot_lt hb) tb
  have alignedA := separate.aligned _ (slot_lt ha) ta
  have alignedB := separate.aligned _ (slot_lt hb) tb
  have entryA := entry_lt va
  have entryB := entry_lt vb
  intro same
  unfold pageAddress at same
  rw [wrap_eq (n := s.dir.tables (pagedirIndex va) + 4 * pagetblIndex va) (by omega),
    wrap_eq (n := s.dir.tables (pagedirIndex vb) + 4 * pagetblIndex vb) (by omega)] at same
  have tables : s.dir.tables (pagedirIndex va) = s.dir.tables (pagedirIndex vb) := by omega
  have slots := separate.apart _ _ (slot_lt ha) (slot_lt hb) ta tables
  exact page (page_split slots (by omega))

section NewTable

variable {t : Vmm}

theorem BlockFits.newTable_eq (fits : BlockFits t) (i : Nat) :
    t.newTable = pageUp t.pmm.placementaddr ∧
      (t.createTable i).pmm.placementaddr = t.newTable + 4096 ∧
      t.pmm.placementaddr ≤ t.newTable ∧ t.newTable ≠ 0 := by
  obtain ⟨positive, room⟩ := fits
  have above : t.pmm.placementaddr ≤ pageUp t.pmm.placementaddr := by
    unfold pageUp
    omega
  have made := dumballoc_eq t.pmm sizeofPageTable (by omega) room
  rw [createTable_pmm]
  unfold Vmm.newTable
  rw [made]
  exact ⟨rfl, rfl, above, by dsimp only; omega⟩

theorem TableRoom.newTable_eq (space : TableRoom t) (i : Nat) :
    t.newTable = pageUp t.pmm.placementaddr ∧
      (t.createTable i).pmm.placementaddr = t.newTable + 4096 ∧
      t.pmm.placementaddr ≤ t.newTable ∧ t.newTable ≠ 0 :=
  space.fits.newTable_eq i

section Directory

variable (fits : BlockFits t) {i : Nat}
include fits

theorem createTable_separate (separate : Separate t) : Separate (t.createTable i) := by
  obtain ⟨fresh, bumped, above, nonzero⟩ := fits.newTable_eq i
  have aligned : t.newTable % 4096 = 0 := by
    rw [fresh]
    unfold pageUp
    omega
  have old : ∀ j, j < 1024 → t.dir.tables j ≠ 0 → t.dir.tables j + 4096 ≤ t.newTable := by
    intro j hj nonnull
    have := separate.below j hj nonnull
    omega
  constructor
  · intro j hj nonnull
    rcases createTable_slot t i j with ⟨_, table⟩ | ⟨_, table⟩
    · rw [table]
      exact aligned
    · rw [table] at nonnull ⊢
      exact separate.aligned j hj nonnull
  · intro j hj nonnull
    rcases createTable_slot t i j with ⟨_, table⟩ | ⟨_, table⟩
    · rw [table, bumped]
    · rw [table] at nonnull ⊢
      have := old j hj nonnull
      omega
  · intro j k hj hk nonnull same
    rcases createTable_slot t i j with ⟨newJ, tableJ⟩ | ⟨_, tableJ⟩
    · rcases createTable_slot t i k with ⟨newK, _⟩ | ⟨_, tableK⟩
      · exact newJ.trans newK.symm
      · rw [same, tableK] at nonnull
        rw [tableJ, tableK] at same
        have := old k hk nonnull
        omega
    · rw [tableJ] at nonnull same
      rcases createTable_slot t i k with ⟨_, tableK⟩ | ⟨_, tableK⟩
      · rw [tableK] at same
        have := old j hj nonnull
        omega
      · rw [tableK] at same
        exact separate.apart j k hj hk nonnull same

theorem createTable_placed (placed : Placed t) : Placed (t.createTable i) := by
  have room := fits.room
  obtain ⟨fresh, bumped, above, nonzero⟩ := fits.newTable_eq i
  have aligned : pageUp t.pmm.placementaddr % 4096 = 0 := by
    unfold pageUp
    omega
  have points : (BitVec.ofNat 20 (t.newTable >>> 12)).toNat <<< 12 = t.newTable := by
    rw [BitVec.toNat_ofNat, Nat.shiftLeft_eq, Nat.shiftRight_eq_div_pow]
    omega
  have separate : Separate (t.createTable i) := createTable_separate fits placed.separate
  refine ⟨?_, separate.below, separate.apart⟩
  intro j hj
  by_cases new : j = i
  · subst new
    rw [createTable_own, createTable_physical, Function.update_self]
    refine ⟨⟨fun _ => rfl, fun _ => nonzero⟩, fun _ => ?_⟩
    rw [tableEntry]
    exact points
  · rw [createTable_other t i j new, createTable_physical, Function.update_of_ne new]
    exact placed.coherent j hj

end Directory

section Contents

variable (space : TableRoom t) {i : Nat}
include space

/-- The memset behind a new table leaves the other tables alone. -/
theorem createTable_entry (a : Nat) (word : a < 2 ^ 32) :
    (a < t.newTable → (t.createTable i).entries a = t.entries a) ∧
      (t.newTable ≤ a → a < t.newTable + 4096 → (t.createTable i).entries a = Page.zero) := by
  have room := space.room
  obtain ⟨fresh, _⟩ := space.newTable_eq i
  have size : 1024 * sizeofPageTable = 0x400000 := rfl
  rw [createTable_entries, size]
  simp only [wsub, wrap]
  constructor
  · intro below
    exact if_neg (by omega)
  · intro above inside
    exact if_pos (by omega)

theorem createTable_page (separate : Separate t) (va : Nat) (word : va < 2 ^ 32) :
    (pagedirIndex va ≠ i → t.dir.tables (pagedirIndex va) ≠ 0 →
      (t.createTable i).entryOf va = t.entryOf va) ∧
    (pagedirIndex va = i → ((t.createTable i).entryOf va).present = false) := by
  have room := space.room
  have entry := entry_lt va
  obtain ⟨fresh, _, above, _⟩ := space.newTable_eq i
  constructor
  · intro other table
    have below := separate.below _ (slot_lt word) table
    have address : pageAddress (t.dir.tables (pagedirIndex va)) (pagetblIndex va) < t.newTable := by
      rw [pageAddress, wrap_eq (n := t.dir.tables (pagedirIndex va) + 4 * pagetblIndex va) (by omega)]
      omega
    unfold Vmm.entryOf Vmm.page
    rw [createTable_other t i _ other]
    exact (createTable_entry space _ (wrap_lt _)).1 address
  · intro new
    have address : pageAddress t.newTable (pagetblIndex va) = t.newTable + 4 * pagetblIndex va :=
      wrap_eq (by omega)
    unfold Vmm.entryOf Vmm.page
    rw [new, createTable_own t i, address,
      (createTable_entry space _ (by omega)).2 (by omega) (by omega)]
    rfl

end Contents

end NewTable

section Entries

variable {t : Vmm} (separate : Separate t) (word : t.pmm.placementaddr < 2 ^ 32) {va : Nat}
  (inside : va < 2 ^ 32) (table : t.dir.tables (pagedirIndex va) ≠ 0)
include separate word inside table

theorem mapPage_entry (vb : Nat) (inside' : vb < 2 ^ 32)
    (tableB : t.dir.tables (pagedirIndex vb) ≠ 0) :
    (t.mapPage (t.dir.tables (pagedirIndex va)) (pagetblIndex va)).entryOf vb =
      if vb / 4096 = va / 4096 then mappedEntry (t.entryOf va) t.pmm.kallocPageFrame.2
      else t.entryOf vb := by
  have read : (t.mapPage (t.dir.tables (pagedirIndex va)) (pagetblIndex va)).entryOf vb =
      (t.mapPage (t.dir.tables (pagedirIndex va)) (pagetblIndex va)).entries
        (pageAddress (t.dir.tables (pagedirIndex vb)) (pagetblIndex vb)) := rfl
  rw [read, mapPage_entries]
  split
  · rename_i page
    rw [(slot_of_page page).1, (slot_of_page page).2, Function.update_self]
    rfl
  · rename_i page
    rw [Function.update_of_ne (entry_apart separate word inside' inside page tableB table)]
    rfl

end Entries

end RiseOS
