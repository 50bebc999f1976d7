import RiseOS.Kernel.Vmm
import RiseOS.Frames.Bitmap

/-! The software walk of virt_phys against the walk of the processor. -/
namespace RiseOS
open Words

theorem pagedirIndex_eq (vaddr : Nat) : pagedirIndex vaddr = vaddr / 2 ^ 22 := by
  rw [pagedirIndex, Nat.shiftRight_eq_div_pow]

theorem pagetblIndex_eq (vaddr : Nat) : pagetblIndex vaddr = vaddr / 4096 % 1024 := by
  rw [pagetblIndex, and_tenBits, Nat.shiftRight_eq_div_pow]

theorem pageframeIndex_eq (vaddr : Nat) : pageframeIndex vaddr = vaddr % 4096 := by
  rw [pageframeIndex, and_offsetMask]

/-- `tables[i]` is non-NULL exactly when `tables_physical[i]` is present, and then
both mean the same table. -/
def Coherent (s : Vmm) : Prop :=
  ∀ i, i < 1024 → (s.dir.tables i ≠ 0 ↔ (s.dir.tablesPhysical i).present = true) ∧
    ((s.dir.tablesPhysical i).present = true →
      (s.dir.tablesPhysical i).frame.toNat <<< 12 = s.dir.tables i)

/-- The entry that the directory's software view assigns to an address. -/
def Vmm.entryOf (s : Vmm) (vaddr : Nat) : Page :=
  s.page (s.dir.tables (pagedirIndex vaddr)) (pagetblIndex vaddr)

def PagePresent (s : Vmm) (vaddr : Nat) : Prop :=
  s.dir.tables (pagedirIndex vaddr) ≠ 0 ∧ (s.entryOf vaddr).present = true

instance (s : Vmm) (vaddr : Nat) : Decidable (PagePresent s vaddr) :=
  inferInstanceAs (Decidable (_ ∧ _))

theorem walk_eq (s : Vmm) (vaddr : Nat) :
    s.walk vaddr =
      if (s.dir.tablesPhysical (pagedirIndex vaddr)).present then
        if (s.entries ((s.dir.tablesPhysical (pagedirIndex vaddr)).frame.toNat <<< 12 +
            4 * pagetblIndex vaddr)).present then
          some ((s.entries ((s.dir.tablesPhysical (pagedirIndex vaddr)).frame.toNat <<< 12 +
            4 * pagetblIndex vaddr)).frame.toNat * 4096 + vaddr % 4096)
        else none
      else none := by
  have combine : ∀ f : Nat, f <<< 12 ||| vaddr &&& 0xFFF = f * 4096 + vaddr % 4096 := by
    intro f
    rw [and_offsetMask, ← Nat.shiftLeft_add_eq_or_of_lt (Nat.mod_lt _ (by decide)), Nat.shiftLeft_eq]
  have index : (vaddr >>> 12) % 1024 = pagetblIndex vaddr := by
    rw [pagetblIndex_eq, Nat.shiftRight_eq_div_pow]
  simp only [Vmm.walk, index, combine]
  rfl

def Vmm.walkEntry (s : Vmm) (vaddr : Nat) : Option Page :=
  let pde := s.dir.tablesPhysical (pagedirIndex vaddr)
  if pde.present then
    let pte := s.entries ((pde.frame.toNat <<< 12) + 4 * pagetblIndex vaddr)
    if pte.present then some pte else none
  else none

theorem walk_walkEntry (s : Vmm) (vaddr : Nat) :
    s.walk vaddr = (s.walkEntry vaddr).map fun p => p.frame.toNat * 4096 + vaddr % 4096 := by
  rw [walk_eq]
  unfold Vmm.walkEntry
  dsimp only
  split
  · split
    · rfl
    · rfl
  · rfl

theorem slot_lt {va : Nat} (word : va < 2 ^ 32) : pagedirIndex va < 1024 := by
  rw [pagedirIndex_eq]
  omega

section Walks

variable (s : Vmm) (coherent : Coherent s) (vaddr : Nat) (word : vaddr < 2 ^ 32)
include coherent word

theorem walkEntry_null (null : s.dir.tables (pagedirIndex vaddr) = 0) : s.walkEntry vaddr = none := by
  have pde : ¬ (s.dir.tablesPhysical (pagedirIndex vaddr)).present = true :=
    fun h => (coherent _ (slot_lt word)).1.mpr h null
  unfold Vmm.walkEntry
  dsimp only
  rw [if_neg pde]

theorem walkEntry_table (table : s.dir.tables (pagedirIndex vaddr) ≠ 0) :
    s.walkEntry vaddr = if (s.entryOf vaddr).present then some (s.entryOf vaddr) else none := by
  obtain ⟨same, points⟩ := coherent _ (slot_lt word)
  have pde := same.mp table
  have low := (s.dir.tablesPhysical (pagedirIndex vaddr)).frame.isLt
  have address : (s.dir.tablesPhysical (pagedirIndex vaddr)).frame.toNat <<< 12 +
      4 * pagetblIndex vaddr = pageAddress (s.dir.tables (pagedirIndex vaddr)) (pagetblIndex vaddr) := by
    rw [pageAddress, ← points pde, pagetblIndex_eq, Nat.shiftLeft_eq, wrap_eq (by omega)]
  unfold Vmm.walkEntry
  dsimp only
  rw [if_pos pde, address]
  rfl

theorem walkEntry_present (present : PagePresent s vaddr) :
    s.walkEntry vaddr = some (s.entryOf vaddr) := by
  rw [walkEntry_table s coherent vaddr word present.1, if_pos present.2]

theorem walkEntry_absent (absent : ¬ PagePresent s vaddr) : s.walkEntry vaddr = none := by
  by_cases table : s.dir.tables (pagedirIndex vaddr) = 0
  · exact walkEntry_null s coherent vaddr word table
  · rw [walkEntry_table s coherent vaddr word table, if_neg (fun h => absent ⟨table, h⟩)]

theorem walk_of_present (present : PagePresent s vaddr) :
    s.walk vaddr = some ((s.entryOf vaddr).frame.toNat * 4096 + vaddr % 4096) := by
  rw [walk_walkEntry, walkEntry_present s coherent vaddr word present]
  rfl

theorem walk_of_absent (absent : ¬ PagePresent s vaddr) : s.walk vaddr = none := by
  rw [walk_walkEntry, walkEntry_absent s coherent vaddr word absent]
  rfl

end Walks

theorem virtPhys_of_present (s : Vmm) (vaddr : Nat) (present : PagePresent s vaddr) :
    (s.virtPhys vaddr).2 = (s.entryOf vaddr).frame.toNat / 4096 + vaddr % 4096 := by
  obtain ⟨table, entry⟩ := present
  have low := (s.entryOf vaddr).frame.isLt
  have shifted : (s.entryOf vaddr).frame.toNat >>> 12 = (s.entryOf vaddr).frame.toNat / 4096 := by
    rw [Nat.shiftRight_eq_div_pow]
  unfold Vmm.entryOf at entry low shifted ⊢
  simp only [Vmm.virtPhys, if_neg table, entry, shifted, pageframeIndex_eq]
  exact wrap_eq (by omega)

theorem virtPhys_of_absent (s : Vmm) (vaddr : Nat) (absent : ¬ PagePresent s vaddr) :
    (s.virtPhys vaddr).2 = 0 := by
  by_cases table : s.dir.tables (pagedirIndex vaddr) = 0
  · simp [Vmm.virtPhys, table]
  · have entry : (s.page (s.dir.tables (pagedirIndex vaddr)) (pagetblIndex vaddr)).present = false :=
      Bool.eq_false_iff.mpr fun h => absent ⟨table, h⟩
    simp [Vmm.virtPhys, table, entry]

/-- What virt_phys is for: the processor's answer, or NULL where there is none. -/
def Translates (s : Vmm) (vaddr : Nat) : Prop := (s.virtPhys vaddr).2 = (s.walk vaddr).getD 0

/-- virt_phys shifts the frame the wrong way, so it is right only on pages that
are absent or lie in frame 0. -/
theorem translates_iff (s : Vmm) (coherent : Coherent s) (vaddr : Nat) (word : vaddr < 2 ^ 32) :
    Translates s vaddr ↔ (PagePresent s vaddr → (s.entryOf vaddr).frame = 0) := by
  unfold Translates
  by_cases present : PagePresent s vaddr
  · have low := (s.entryOf vaddr).frame.isLt
    have zero : (s.entryOf vaddr).frame = 0 ↔ (s.entryOf vaddr).frame.toNat = 0 := by
      rw [BitVec.toNat_eq]
      rfl
    rw [virtPhys_of_present s vaddr present, walk_of_present s coherent vaddr word present]
    simp only [Option.getD_some, present, true_imp_iff, zero]
    omega
  · rw [virtPhys_of_absent s vaddr present, walk_of_absent s coherent vaddr word present]
    simp [present]

/-- One table at 3 MiB whose second page lies in frame 5. -/
def oneMapping : Vmm where
  pmm := ⟨0x301000, fun _ => 0#32, []⟩
  kernelDir := 0x2FE000
  dir := ⟨fun i => if i = 0 then 0x300000 else 0,
    fun i => if i = 0 then tableEntry PageDirEntry.zero 0x300000 else PageDirEntry.zero⟩
  entries := fun a => if a = 0x300004 then { Page.zero with present := true, frame := 5 } else Page.zero
  heapStart := 0x301400
  heapEnd := 0x701400
  heapCur := 0x301400
  trace := []
  calls := []

theorem oneMapping_coherent : Coherent oneMapping := by
  intro i _
  by_cases first : i = 0
  · subst first
    decide
  · simp [oneMapping, first, PageDirEntry.zero]

/-- The walk finds 0x5234 for the address 0x1234, virt_phys answers 0x234. -/
theorem mapped_page_mistranslated : Coherent oneMapping ∧ ¬ Translates oneMapping 0x1234 :=
  ⟨oneMapping_coherent, by unfold Translates; decide⟩

theorem absent_page_translated : Translates oneMapping 0x2234 :=
  (translates_iff oneMapping oneMapping_coherent 0x2234 (by decide)).mpr
    (fun present => absurd present.2 (by decide))

end RiseOS
