import RiseOS.Paging.Growth

/-! The map that paging_init builds, and the bytes it writes on the way. -/
namespace RiseOS
open Words

/-- What paging_init adds to the trace. -/
def Vmm.bootEvents (s : Vmm) : List Event := s.pagingInit.trace.drop s.trace.length

/-- Every store goes into the block of the directory or of the table, and exactly
the pages that begin below the new `placementaddr` are mapped, each to itself
and for the supervisor only. -/
structure BuildsIdentityMap (s : Vmm) : Prop where
  stores : ∀ e ∈ s.bootEvents,
    e.written ⊆ bytes s.pagingInit.kernelDir sizeofPageDirectory ∨
    e.written ⊆ bytes (s.pagingInit.dir.tables 0) sizeofPageTable
  below : ∀ va, va < 2 ^ 32 → va / 4096 * 4096 < s.pagingInit.pmm.placementaddr →
    s.pagingInit.walk va = some va ∧ ∃ p, s.pagingInit.walkEntry va = some p ∧ p.user = false
  above : ∀ va, va < 2 ^ 32 → s.pagingInit.pmm.placementaddr ≤ va / 4096 * 4096 →
    s.pagingInit.walk va = none

/-- The kernel, the directory, the table and the frame list end below 4 MiB. -/
def EndsLow (s : Vmm) : Prop :=
  s.pmm.placementaddr < 2 ^ 32 ∧ s.bootTable + 0x1400 ≤ 0x400000

theorem EndsLow.bootRoom {s : Vmm} (low : EndsLow s) : BootRoom s := by
  obtain ⟨word, room⟩ := low
  unfold Vmm.bootTable at room
  exact ⟨word, by omega⟩

theorem bootTable_aligned (s : Vmm) : s.bootTable % 4096 = 0 ∧ 0x2000 ≤ s.bootTable := by
  unfold Vmm.bootTable pageUp
  omega

theorem identityLoop_trace (s : Vmm) (table count : Nat) :
    s.trace <+: (s.identityLoop table count).trace := by
  induction count with
  | zero => exact List.prefix_refl _
  | succ count ih => exact ih.trans (List.prefix_append _ [Event.store (pageAddress table count)])

/-- The directory of 8192 bytes is cleared over 8 MiB, wherever it lies. -/
theorem directory_cleared (s : Vmm) :
    .cleared s.pagingInit.kernelDir (1024 * sizeofPageDirectory) ∈ s.bootEvents := by
  have first : s.trace ++ [.cleared s.pagingInit.kernelDir (1024 * sizeofPageDirectory)] <+:
      s.pagingInit.trace := by
    simp only [Vmm.pagingInit, Vmm.qemuPrintf, Vmm.setTable, Vmm.setPhysical, Vmm.log,
      identityLoop_rest, Vmm.memsetZero, Vmm.dumballocTable]
    refine (List.IsPrefix.trans ?_ (List.prefix_append _ _)).trans (List.prefix_append _ _)
    refine List.IsPrefix.trans ?_ (identityLoop_trace _ _ _)
    exact (List.prefix_append _ _).trans (List.prefix_append _ _)
  obtain ⟨events, grown⟩ := first
  rw [Vmm.bootEvents, ← grown, List.append_assoc, List.drop_left]
  exact List.mem_append_left _ (List.mem_singleton.mpr rfl)

section Boot

variable (s : Vmm) (low : EndsLow s)
include low

/-- The table was cleared before its entries were written, whatever it held. -/
theorem pagingInit_entry (i : Nat) (inside : i < 1024) :
    s.pagingInit.entries (s.bootTable + 4 * i) = identityEntry Page.zero i := by
  have least := (bootTable_aligned s).2
  have most := low.2
  have index : (s.bootTable + 4 * i - s.bootTable) / 4 = i := by omega
  have cleared : wsub (s.bootTable + 4 * i) s.bootTable < 1024 * sizeofPageTable := by
    rw [wsub_eq (by omega) (by omega), sizeofPageTable]
    omega
  generalize rounds : s.bootTable + 0x1400 = count at most
  rw [pagingInit_written s low.bootRoom count rounds.symm (by omega),
    bootBlocks_entries s low.bootRoom, if_pos (by omega), if_pos cleared, index]

theorem pagingInit_walkEntry (va : Nat) (word : va < 2 ^ 32) : s.pagingInit.walkEntry va =
    if va < 0x400000 then some (identityEntry Page.zero (va / 4096)) else none := by
  have aligned := bootTable_aligned s
  have points : (BitVec.ofNat 20 (s.bootTable >>> 12)).toNat <<< 12 = s.bootTable := by
    have := low.2
    rw [BitVec.toNat_ofNat, Nat.shiftLeft_eq, Nat.shiftRight_eq_div_pow]
    omega
  unfold Vmm.walkEntry
  dsimp only
  rw [pagingInit_physical s low.bootRoom]
  by_cases inside : va < 0x400000
  · have slot : pagedirIndex va = 0 := by
      rw [pagedirIndex_eq]
      omega
    have entry : pagetblIndex va = va / 4096 := by
      rw [pagetblIndex_eq]
      omega
    have present : (tableEntry PageDirEntry.zero s.bootTable).present = true := rfl
    have frame : (tableEntry PageDirEntry.zero s.bootTable).frame.toNat <<< 12 = s.bootTable := points
    rw [slot, Function.update_self, if_pos present, frame, entry,
      pagingInit_entry s low _ (by omega), if_pos inside]
    rfl
  · have slot : pagedirIndex va ≠ 0 := by
      rw [pagedirIndex_eq]
      omega
    rw [Function.update_of_ne slot, if_neg inside]
    rfl

theorem pagingInit_walk (va : Nat) (word : va < 2 ^ 32) :
    s.pagingInit.walk va = if va < 0x400000 then some va else none := by
  rw [walk_walkEntry, pagingInit_walkEntry s low va word]
  by_cases inside : va < 0x400000
  · have frame : (identityEntry Page.zero (va / 4096)).frame.toNat = va / 4096 := by
      rw [identityEntry, BitVec.toNat_ofNat]
      omega
    rw [if_pos inside, if_pos inside, Option.map_some, frame]
    exact congrArg some (by omega)
  · rw [if_neg inside, if_neg inside]
    rfl

theorem pagingInit_stores_outside : ¬ ∀ e ∈ s.bootEvents,
    e.written ⊆ bytes s.pagingInit.kernelDir sizeofPageDirectory ∨
    e.written ⊆ bytes (s.pagingInit.dir.tables 0) sizeofPageTable := by
  intro confined
  have table : s.pagingInit.dir.tables 0 = s.bootTable := by
    rw [pagingInit_tables s low.bootRoom, Function.update_self]
  have start := pagingInit_kernelDir s low.bootRoom
  have behind : s.pagingInit.kernelDir + 0x3000 ∈
      bytes s.pagingInit.kernelDir (1024 * sizeofPageDirectory) := by
    simp only [bytes, Set.mem_Ico, sizeofPageDirectory]
    omega
  rcases confined _ (directory_cleared s) with directory | page
  · have inside := directory behind
    simp only [bytes, Set.mem_Ico, sizeofPageDirectory] at inside
    omega
  · have inside := page behind
    rw [table, start] at inside
    simp only [bytes, Set.mem_Ico, sizeofPageTable, Vmm.bootTable] at inside
    omega

/-- The map below the new `placementaddr` is right. The whole first 4 MiB are
mapped with it, and the clearing of the directory leaves its block. -/
theorem paging_init_maps_first_slot :
    ¬ BuildsIdentityMap s ∧
    (∀ va, va < 2 ^ 32 → va / 4096 * 4096 < s.pagingInit.pmm.placementaddr →
      s.pagingInit.walk va = some va ∧ ∃ p, s.pagingInit.walkEntry va = some p ∧ p.user = false) ∧
    ((∀ va, va < 2 ^ 32 → s.pagingInit.pmm.placementaddr ≤ va / 4096 * 4096 →
      s.pagingInit.walk va = none) ↔ s.pmm.placementaddr > 0x3FB000) := by
  obtain ⟨placed, _⟩ := pagingInit_pmm s low.bootRoom
  have room := low.2
  refine ⟨fun built => pagingInit_stores_outside s low built.stores, fun va word page => ?_, ?_⟩
  · rw [placed] at page
    have inside : va < 0x400000 := by omega
    rw [pagingInit_walk s low va word, pagingInit_walkEntry s low va word, if_pos inside,
      if_pos inside]
    exact ⟨rfl, _, rfl, rfl⟩
  · rw [placed]
    have at_table : s.bootTable = (s.pmm.placementaddr + 4095) / 4096 * 4096 + 0x2000 := rfl
    constructor
    · intro above
      by_contra early
      have last := above 0x3FF000 (by decide) (by omega)
      rw [pagingInit_walk s low _ (by decide)] at last
      cases last
    · intro late va word page
      rw [pagingInit_walk s low va word, if_neg (by omega)]

end Boot

theorem bootAt3M_maps_first_slot : ¬ BuildsIdentityMap bootAt3M ∧
    bootAt3M.pagingInit.walk 0x303000 = some 0x303000 := by
  obtain ⟨notBuilt, below, _⟩ := paging_init_maps_first_slot bootAt3M ⟨by decide, by decide⟩
  have placed := (pagingInit_pmm bootAt3M (by decide)).1
  exact ⟨notBuilt, (below 0x303000 (by decide) (by rw [placed]; decide)).1⟩

/-- The directory at 3 MiB is cleared up to 11 MiB, and page 0x304000 is mapped
although `placementaddr` is 0x303400. -/
theorem directory_cleared_over_8M : ¬ BuildsIdentityMap bootAt3M ∧
    .cleared 0x300000 0x800000 ∈ bootAt3M.bootEvents ∧
    bootAt3M.pagingInit.pmm.placementaddr = 0x303400 ∧
    bootAt3M.pagingInit.walk 0x304000 = some 0x304000 := by
  have low : EndsLow bootAt3M := ⟨by decide, by decide⟩
  have cleared := directory_cleared bootAt3M
  rw [pagingInit_kernelDir bootAt3M low.bootRoom] at cleared
  refine ⟨fun built => pagingInit_stores_outside bootAt3M low built.stores, cleared, ?_, ?_⟩
  · exact (pagingInit_pmm bootAt3M low.bootRoom).1
  · exact pagingInit_walk bootAt3M low 0x304000 (by decide)

end RiseOS
