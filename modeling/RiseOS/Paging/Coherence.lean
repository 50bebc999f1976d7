import RiseOS.Library.Runs
import RiseOS.Paging.Growth
import RiseOS.Paging.Presence

/-! The two views of a page directory, over runs of page and region calls. -/
namespace RiseOS
open Words Runs

inductive PagingCall where
  | allocatePage (vaddr : BitVec 32)
  | freePage (vaddr : BitVec 32)
  | allocateRegion (startVa endVa : BitVec 32)
  | freeRegion (startVa endVa : BitVec 32)

def pagingStep (s : Vmm) : PagingCall → Option Vmm
  | .allocatePage vaddr => some (s.allocatePage vaddr.toNat)
  | .freePage vaddr => some (s.freePage vaddr.toNat)
  | .allocateRegion startVa endVa => s.allocateRegion startVa.toNat endVa.toNat
  | .freeRegion startVa endVa => s.freeRegion startVa.toNat endVa.toNat

/-- A new table for the page, if it needs one, leaves `len` bytes from its start
below the end of the words. -/
def TableFits (len : Nat) (s : Vmm) (vaddr : Nat) : Prop :=
  s.dir.tables (pagedirIndex vaddr) = 0 → pageUp s.pmm.placementaddr + len < 2 ^ 32

/-- Every table that the call makes fits, in the state in which it is made. -/
def FitsCall (len : Nat) (s : Vmm) : PagingCall → Prop
  | .allocatePage vaddr => TableFits len s vaddr.toNat
  | .allocateRegion startVa endVa =>
      Permitted (fun t va => some (t.allocatePage va)) (TableFits len) s
        (regionPages startVa.toNat endVa.toNat)
  | .freePage _ | .freeRegion _ _ => True

instance (len : Nat) (s : Vmm) (vaddr : Nat) : Decidable (TableFits len s vaddr) :=
  inferInstanceAs (Decidable (_ → _))

instance (len : Nat) (s : Vmm) (call : PagingCall) : Decidable (FitsCall len s call) := by
  cases call with
  | allocatePage vaddr => exact inferInstanceAs (Decidable (TableFits len s vaddr.toNat))
  | freePage vaddr => exact isTrue trivial
  | allocateRegion startVa endVa => exact decidablePermitted _ _ s _
  | freeRegion startVa endVa => exact isTrue trivial

/-- The software pointers and the physical entries of a directory describe the
same tables, one to a slot. -/
structure DirectoryCoherent (s : Vmm) : Prop where
  present : ∀ i, i < 1024 → (s.dir.tables i ≠ 0 ↔ (s.dir.tablesPhysical i).present = true)
  points : ∀ i, i < 1024 → s.dir.tables i ≠ 0 →
    (s.dir.tablesPhysical i).frame.toNat <<< 12 = s.dir.tables i
  aligned : ∀ i, i < 1024 → s.dir.tables i ≠ 0 → s.dir.tables i % 4096 = 0
  small : ∀ i, i < 1024 → s.dir.tables i ≠ 0 → (s.dir.tablesPhysical i).pageSize = false
  apart : ∀ i j, i < 1024 → j < 1024 → i ≠ j → s.dir.tables i ≠ 0 → s.dir.tables j ≠ 0 →
    Disjoint (bytes (s.dir.tables i) sizeofPageTable) (bytes (s.dir.tables j) sizeofPageTable)

section Steps

variable (len : Nat) (inv : Vmm → Prop)
  (allocate : ∀ s va, va < 2 ^ 32 → inv s → TableFits len s va → inv (s.allocatePage va))
  (free : ∀ s va, va < 2 ^ 32 → inv s → inv (s.freePage va))
include allocate free

/-- What single pages keep, the calls keep. -/
theorem pagingStep_keeps (s : Vmm) (call : PagingCall) (t : Vmm) (before : inv s)
    (fits : FitsCall len s call) (stepped : pagingStep s call = some t) : inv t := by
  have words : ∀ startVa endVa : BitVec 32, ∀ va ∈ regionPages startVa.toNat endVa.toNat,
      va < 2 ^ 32 := by
    intro startVa endVa va member
    have last := endVa.isLt
    have inside := (mem_regionPages va _ _).mp member
    omega
  cases call with
  | allocatePage vaddr =>
    cases stepped
    exact allocate s _ vaddr.isLt before fits
  | freePage vaddr =>
    cases stepped
    exact free s _ vaddr.isLt before
  | allocateRegion startVa endVa =>
    rw [pagingStep, Vmm.allocateRegion, region_eq _ s _ _ startVa.isLt endVa.isLt] at stepped
    split at stepped
    · cases stepped
      apply foldl_invariant Vmm.allocatePage (TableFits len) inv
      · intro u va member hu room
        exact allocate u va (words startVa endVa va member) hu room
      · exact before
      · exact fits
    · cases stepped
  | freeRegion startVa endVa =>
    rw [pagingStep, Vmm.freeRegion, region_eq _ s _ _ startVa.isLt endVa.isLt] at stepped
    split at stepped
    · cases stepped
      apply foldl_keeps Vmm.freePage inv
      · intro u va member hu
        exact free u va (words startVa endVa va member) hu
      · exact before
    · cases stepped

theorem paging_always (s : Vmm) (calls : List PagingCall) (initial : inv s)
    (fits : Permitted pagingStep (FitsCall len) s calls) : Always pagingStep inv s calls :=
  always_invariant pagingStep (FitsCall len) inv (pagingStep_keeps len inv allocate free) s calls
    initial fits

end Steps

/-! ### Coherence -/

/-- Tables in their places below `placementaddr`, behind entries for small pages. -/
structure Mirrored (s : Vmm) : Prop where
  placed : Placed s
  small : ∀ i, i < 1024 → s.dir.tables i ≠ 0 → (s.dir.tablesPhysical i).pageSize = false
  positive : 0 < s.pmm.placementaddr
  word : s.pmm.placementaddr < 2 ^ 32

theorem Mirrored.zero {s : Vmm} (zero : ∀ i, i < 1024 → s.dir.tables i = 0 ∧
    s.dir.tablesPhysical i = PageDirEntry.zero) (positive : 0 < s.pmm.placementaddr)
    (word : s.pmm.placementaddr < 2 ^ 32) : Mirrored s := by
  have null : ∀ i, i < 1024 → ¬ s.dir.tables i ≠ 0 := fun i hi table => table (zero i hi).1
  constructor
  · constructor
    · intro i hi
      rw [(zero i hi).1, (zero i hi).2]
      exact ⟨by decide, fun present => nomatch present⟩
    · intro i hi table
      exact absurd table (null i hi)
    · intro i j hi hj table
      exact absurd table (null i hi)
  · intro i hi table
    exact absurd table (null i hi)
  · exact positive
  · exact word

section Mirrored

variable {s : Vmm} (inv : Mirrored s)
include inv

theorem Mirrored.coherent : DirectoryCoherent s := by
  have separate := inv.placed.separate
  constructor
  · intro i hi
    exact (inv.placed.coherent i hi).1
  · intro i hi table
    obtain ⟨same, points⟩ := inv.placed.coherent i hi
    exact points (same.mp table)
  · exact separate.aligned
  · exact inv.small
  · intro i j hi hj distinct tableI tableJ
    have alignedI := separate.aligned i hi tableI
    have alignedJ := separate.aligned j hj tableJ
    have other : s.dir.tables i ≠ s.dir.tables j :=
      fun same => distinct (separate.apart i j hi hj tableI same)
    rw [disjoint_bytes, sizeofPageTable]
    omega

theorem Mirrored.congr {t : Vmm} (dir : t.dir = s.dir)
    (same : t.pmm.placementaddr = s.pmm.placementaddr) : Mirrored t := by
  constructor
  · exact inv.placed.congr dir same
  · rw [dir]
    exact inv.small
  · rw [same]
    exact inv.positive
  · rw [same]
    exact inv.word

theorem Mirrored.createTable (room : pageUp s.pmm.placementaddr + sizeofPageTable < 2 ^ 32) (i : Nat) :
    Mirrored (s.createTable i) := by
  have fits : BlockFits s := ⟨inv.positive, room⟩
  obtain ⟨fresh, bumped, above, nonzero⟩ := fits.newTable_eq i
  constructor
  · exact createTable_placed fits inv.placed
  · intro j hj table
    rcases createTable_slot s i j with ⟨rfl, _⟩ | ⟨other, same⟩
    · rw [createTable_physical, Function.update_self, tableEntry]
    · rw [same] at table
      rw [createTable_physical, Function.update_of_ne other]
      exact inv.small j hj table
  · omega
  · rw [bumped, fresh]
    exact room

theorem Mirrored.withTable {va : Nat} (fits : TableFits sizeofPageTable s va) :
    Mirrored (s.withTable (pagedirIndex va)) := by
  unfold Vmm.withTable
  split
  · rename_i null
    exact inv.createTable (fits null) (pagedirIndex va)
  · exact inv

theorem Mirrored.allocatePage {va : Nat} (fits : TableFits sizeofPageTable s va) :
    Mirrored (s.allocatePage va) := by
  have made := inv.withTable fits
  rw [allocatePage_eq]
  split
  · exact made
  · apply made.congr
    · exact mapPage_dir _ _ _
    · exact kallocPageFrame_placementaddr _

theorem Mirrored.freePage (va : Nat) : Mirrored (s.freePage va) :=
  inv.congr (freePage_tables s va) (freePage_pmm s va)

end Mirrored

/-- From an all-zero directory on, both views agree after every call of every run
in which dumballoc does not run over the end of the words. -/
theorem directory_stays_coherent (s : Vmm) (calls : List PagingCall)
    (zero : ∀ i, i < 1024 → s.dir.tables i = 0 ∧ s.dir.tablesPhysical i = PageDirEntry.zero)
    (linked : 0x100000 ≤ s.pmm.placementaddr) (word : s.pmm.placementaddr < 2 ^ 32)
    (fits : Permitted pagingStep (FitsCall sizeofPageTable) s calls) :
    Always pagingStep DirectoryCoherent s calls := by
  have initial : Mirrored s := Mirrored.zero zero (by omega) word
  have mirrored : Always pagingStep Mirrored s calls := by
    apply paging_always sizeofPageTable Mirrored
    · intro u va _ inv room
      exact inv.allocatePage room
    · intro u va _ inv
      exact inv.freePage va
    · exact initial
    · exact fits
  intro done cut t reached
  exact (mirrored done cut t reached).coherent

def emptyDirectory : Vmm :=
  { oneMapping with
    pmm := ⟨0x100000, fun _ => 0, []⟩
    dir := ⟨fun _ => 0, fun _ => PageDirEntry.zero⟩ }

/-- A region over the 4 MiB border, made and unmade around a single page. -/
theorem border_region_coherent : Always pagingStep DirectoryCoherent emptyDirectory
    [.allocatePage 0x1000#32, .allocateRegion 0x3FF000#32 0x400FFF#32, .freePage 0x1000#32,
      .freeRegion 0x3FF000#32 0x400FFF#32] := by
  apply directory_stays_coherent
  · intro i _
    exact ⟨rfl, rfl⟩
  · decide
  · decide
  · decide

/-! ### The directory's own memory -/

/-- A store to one of the two words of a slot. -/
def SlotStore (dir : Nat) (e : Event) : Prop :=
  ∃ i, i < 1024 ∧ (e = .store (wrap (dir + 4 * i)) ∨ e = .store (wrap (dir + 4096 + 4 * i)))

/-- All that is written besides the directory's slots is outside the directory,
and below the end of the words. -/
def SparesDirectory (dir : Nat) (events : List Event) : Prop :=
  ∀ e ∈ events, SlotStore dir e ∨
    Disjoint e.written (bytes dir sizeofPageDirectory) ∧ e.written ⊆ Set.Iio (2 ^ 32)

theorem SparesDirectory.nil (dir : Nat) : SparesDirectory dir [] := by
  intro e none
  cases none

theorem SparesDirectory.append (dir : Nat) (es fs : List Event) (he : SparesDirectory dir es)
    (hf : SparesDirectory dir fs) : SparesDirectory dir (es ++ fs) := by
  intro e member
  cases List.mem_append.mp member with
  | inl first => exact he e first
  | inr second => exact hf e second

theorem spared {dir a n : Nat} (behind : dir + sizeofPageDirectory ≤ a) (word : a + n ≤ 2 ^ 32) :
    Disjoint (bytes a n) (bytes dir sizeofPageDirectory) ∧ bytes a n ⊆ Set.Iio (2 ^ 32) := by
  constructor
  · rw [disjoint_bytes]
    omega
  · intro b member
    exact Nat.lt_of_lt_of_le member.2 word

theorem spared_quiet (dir : Nat) (e : Event) (quiet : e.written = ∅) :
    Disjoint e.written (bytes dir sizeofPageDirectory) ∧ e.written ⊆ Set.Iio (2 ^ 32) := by
  rw [quiet]
  exact ⟨Set.empty_disjoint _, Set.empty_subset _⟩

/-- The directory lies below all its tables and below what dumballoc gives next. -/
structure DirectoryBelow (s : Vmm) : Prop where
  mirrored : Mirrored s
  next : s.kernelDir + sizeofPageDirectory ≤ s.pmm.placementaddr
  tables : ∀ i, i < 1024 → s.dir.tables i ≠ 0 → s.kernelDir + sizeofPageDirectory ≤ s.dir.tables i

section DirectoryBelow

variable {s : Vmm} (inv : DirectoryBelow s)
include inv

theorem DirectoryBelow.congr {t : Vmm} (dir : t.dir = s.dir) (here : t.kernelDir = s.kernelDir)
    (same : t.pmm.placementaddr = s.pmm.placementaddr) : DirectoryBelow t := by
  constructor
  · exact inv.mirrored.congr dir same
  · rw [here, same]
    exact inv.next
  · rw [here, dir]
    exact inv.tables

theorem DirectoryBelow.createTable {i : Nat} (slot : i < 1024)
    (room : pageUp s.pmm.placementaddr + 1024 * sizeofPageTable < 2 ^ 32) :
    DirectoryBelow (s.createTable i) ∧
      Grows (SparesDirectory s.kernelDir) s (s.createTable i) := by
  have block : pageUp s.pmm.placementaddr + sizeofPageTable < 2 ^ 32 := by omega
  have fits : BlockFits s := ⟨inv.mirrored.positive, block⟩
  obtain ⟨fresh, bumped, above, nonzero⟩ := fits.newTable_eq i
  have next := inv.next
  constructor
  · constructor
    · exact inv.mirrored.createTable block i
    · rw [createTable_kernelDir]
      omega
    · intro j hj table
      rw [createTable_kernelDir]
      rcases createTable_slot s i j with ⟨_, made⟩ | ⟨_, same⟩
      · rw [made]
        omega
      · rw [same] at table ⊢
        exact inv.tables j hj table
  · refine ⟨_, createTable_trace s i, ?_⟩
    have behind : s.kernelDir + sizeofPageDirectory ≤ s.newTable := by omega
    have cleared := spared behind (n := 1024 * sizeofPageTable) (by omega)
    intro e member
    simp only [List.mem_cons, List.not_mem_nil, or_false] at member
    rcases member with rfl | rfl | rfl | rfl
    · exact .inr (spared_quiet _ _ rfl)
    · exact .inr cleared
    · exact .inl ⟨i, slot, .inr rfl⟩
    · exact .inl ⟨i, slot, .inl rfl⟩

theorem DirectoryBelow.entry_spared {va : Nat} (word : va < 2 ^ 32)
    (table : s.dir.tables (pagedirIndex va) ≠ 0) :
    Disjoint (bytes (pageAddress (s.dir.tables (pagedirIndex va)) (pagetblIndex va)) 4)
        (bytes s.kernelDir sizeofPageDirectory) ∧
      bytes (pageAddress (s.dir.tables (pagedirIndex va)) (pagetblIndex va)) 4 ⊆
        Set.Iio (2 ^ 32) := by
  have below := inv.mirrored.placed.below _ (slot_lt word) table
  have low := inv.mirrored.word
  have whole := spared (inv.tables _ (slot_lt word) table) (n := sizeofPageTable) (by
    rw [sizeofPageTable]
    omega)
  have entry := pageAddress_inside (entry_lt va)
    (by omega : s.dir.tables (pagedirIndex va) + 4096 < 2 ^ 32)
  exact ⟨whole.1.mono_left entry, entry.trans whole.2⟩

theorem DirectoryBelow.withTable {va : Nat} (word : va < 2 ^ 32)
    (fits : TableFits (1024 * sizeofPageTable) s va) :
    DirectoryBelow (s.withTable (pagedirIndex va)) ∧
      (s.withTable (pagedirIndex va)).kernelDir = s.kernelDir ∧
      (s.withTable (pagedirIndex va)).dir.tables (pagedirIndex va) ≠ 0 ∧
      Grows (SparesDirectory s.kernelDir) s (s.withTable (pagedirIndex va)) := by
  unfold Vmm.withTable
  split
  · rename_i null
    have room := fits null
    have block : BlockFits s := ⟨inv.mirrored.positive, by omega⟩
    obtain ⟨below, grown⟩ := inv.createTable (slot_lt word) room
    refine ⟨below, createTable_kernelDir s _, ?_, grown⟩
    rw [createTable_own]
    exact (block.newTable_eq (pagedirIndex va)).2.2.2
  · rename_i table
    exact ⟨inv, rfl, table, Grows.refl (SparesDirectory.nil _) s⟩

theorem DirectoryBelow.mapPage {va : Nat} (word : va < 2 ^ 32)
    (table : s.dir.tables (pagedirIndex va) ≠ 0) :
    DirectoryBelow (s.mapPage (s.dir.tables (pagedirIndex va)) (pagetblIndex va)) ∧
      Grows (SparesDirectory s.kernelDir) s
        (s.mapPage (s.dir.tables (pagedirIndex va)) (pagetblIndex va)) := by
  constructor
  · exact inv.congr (mapPage_dir s _ _) (mapPage_kernelDir s _ _) (kallocPageFrame_placementaddr s.pmm)
  · refine ⟨_, mapPage_trace s _ _, ?_⟩
    intro e member
    simp only [List.mem_cons, List.not_mem_nil, or_false] at member
    rcases member with rfl | rfl | rfl
    · exact .inr (spared_quiet _ _ rfl)
    · exact .inr (inv.entry_spared word table)
    · exact .inr (spared_quiet _ _ rfl)

theorem DirectoryBelow.allocatePage {va : Nat} (word : va < 2 ^ 32)
    (fits : TableFits (1024 * sizeofPageTable) s va) :
    DirectoryBelow (s.allocatePage va) ∧ (s.allocatePage va).kernelDir = s.kernelDir ∧
      Grows (SparesDirectory s.kernelDir) s (s.allocatePage va) := by
  obtain ⟨made, here, table, grown⟩ := inv.withTable word fits
  rw [allocatePage_eq]
  split
  · exact ⟨made, here, grown⟩
  · obtain ⟨mapped, more⟩ := made.mapPage word table
    rw [here] at more
    constructor
    · exact mapped
    · exact ⟨here, grown.trans (SparesDirectory.append s.kernelDir) more⟩

theorem DirectoryBelow.freePage {va : Nat} (word : va < 2 ^ 32) :
    DirectoryBelow (s.freePage va) ∧ (s.freePage va).kernelDir = s.kernelDir ∧
      Grows (SparesDirectory s.kernelDir) s (s.freePage va) := by
  obtain ⟨here, grown⟩ : (s.freePage va).kernelDir = s.kernelDir ∧
      Grows (SparesDirectory s.kernelDir) s (s.freePage va) := by
    unfold Vmm.freePage
    dsimp only
    split
    · exact ⟨rfl, Grows.refl (SparesDirectory.nil _) s⟩
    · rename_i table
      split
      · exact ⟨rfl, Grows.refl (SparesDirectory.nil _) s⟩
      · refine ⟨rfl, _, rfl, ?_⟩
        intro e member
        cases List.mem_singleton.mp member
        exact .inr (inv.entry_spared word table)
  constructor
  · exact inv.congr (freePage_tables s va) here (freePage_pmm s va)
  · exact ⟨here, grown⟩

end DirectoryBelow

/-- Where the clearing behind a new table does not run over the end of the words,
no call touches a directory that lies below its tables, its slots apart. -/
theorem directory_memory_spared (s : Vmm) (calls : List PagingCall)
    (zero : ∀ i, i < 1024 → s.dir.tables i = 0 ∧ s.dir.tablesPhysical i = PageDirEntry.zero)
    (behind : s.kernelDir + sizeofPageDirectory ≤ s.pmm.placementaddr)
    (word : s.pmm.placementaddr < 2 ^ 32)
    (fits : Permitted pagingStep (FitsCall (1024 * sizeofPageTable)) s calls) :
    Always pagingStep (Grows (SparesDirectory s.kernelDir) s) s calls := by
  have positive : 0 < s.pmm.placementaddr := by
    rw [sizeofPageDirectory] at behind
    omega
  have initial : DirectoryBelow s := by
    refine ⟨Mirrored.zero zero positive word, behind, ?_⟩
    intro i hi table
    exact absurd (zero i hi).1 table
  have kept : Always pagingStep (fun t => DirectoryBelow t ∧ t.kernelDir = s.kernelDir ∧
      Grows (SparesDirectory s.kernelDir) s t) s calls := by
    apply paging_always (1024 * sizeofPageTable)
    · rintro u va inside ⟨inv, here, grown⟩ room
      obtain ⟨inv', here', more⟩ := inv.allocatePage inside room
      rw [here] at here' more
      exact ⟨inv', here', grown.trans (SparesDirectory.append s.kernelDir) more⟩
    · rintro u va inside ⟨inv, here, grown⟩
      obtain ⟨inv', here', more⟩ := inv.freePage inside
      rw [here] at here' more
      exact ⟨inv', here', grown.trans (SparesDirectory.append s.kernelDir) more⟩
    · exact ⟨initial, rfl, Grows.refl (SparesDirectory.nil _) s⟩
    · exact fits
  intro done cut t reached
  exact (kept done cut t reached).2.2

end RiseOS
