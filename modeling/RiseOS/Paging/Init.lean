import RiseOS.Paging.Effects

/-! The state that paging_init leaves behind. -/
namespace RiseOS
open Words

theorem identityLoop_rest (s : Vmm) (table count : Nat) :
    (s.identityLoop table count).pmm = s.pmm ∧ (s.identityLoop table count).dir = s.dir ∧
      (s.identityLoop table count).kernelDir = s.kernelDir ∧
      (s.identityLoop table count).calls = s.calls := by
  induction count with
  | zero => exact ⟨rfl, rfl, rfl, rfl⟩
  | succ count ih => exact ih

theorem identityLoop_entries (s : Vmm) (table count : Nat) :
    (s.identityLoop table (count + 1)).entries =
      Function.update (s.identityLoop table count).entries (pageAddress table count)
        { (s.identityLoop table count).page table count with
          present := true, writeable := true, user := false, frame := BitVec.ofNat 20 count } := rfl

def identityEntry (old : Page) (i : Nat) : Page :=
  { old with present := true, writeable := true, user := false, frame := BitVec.ofNat 20 i }

theorem identityLoop_closed (s : Vmm) (table count : Nat) (room : table + 4 * count ≤ 2 ^ 32)
    (a : Nat) : (s.identityLoop table count).entries a =
      if table ≤ a ∧ a < table + 4 * count ∧ (a - table) % 4 = 0 then
        identityEntry (s.entries a) ((a - table) / 4)
      else s.entries a := by
  induction count generalizing a with
  | zero =>
    rw [if_neg (by omega)]
    rfl
  | succ count ih =>
    have before := ih (by omega)
    have last : pageAddress table count = table + 4 * count := wrap_eq (by omega)
    have step : (s.identityLoop table (count + 1)).entries =
        Function.update (s.identityLoop table count).entries (table + 4 * count)
          (identityEntry ((s.identityLoop table count).entries (table + 4 * count)) count) := by
      rw [← last]
      exact identityLoop_entries s table count
    rw [step]
    by_cases here : a = table + 4 * count
    · subst here
      have index : (table + 4 * count - table) / 4 = count := by omega
      rw [Function.update_self, if_pos (by omega), index, before, if_neg (by omega)]
    · rw [Function.update_of_ne here, before]
      by_cases inside : table ≤ a ∧ a < table + 4 * count ∧ (a - table) % 4 = 0
      · rw [if_pos inside, if_pos (by omega)]
      · rw [if_neg inside, if_neg (by omega)]

/-- The blocks that paging_init takes fit below 2^32, and so does the heap. -/
def BootRoom (s : Vmm) : Prop :=
  s.pmm.placementaddr < 2 ^ 32 ∧ pageUp s.pmm.placementaddr + 0x403400 < 2 ^ 32

instance (s : Vmm) : Decidable (BootRoom s) := inferInstanceAs (Decidable (_ ∧ _))

def Vmm.bootTable (s : Vmm) : Nat := pageUp s.pmm.placementaddr + 0x2000

/-- paging_init up to its loop, with the table: the blocks are taken, the directory
and the table cleared. -/
def Vmm.bootBlocks (s : Vmm) : Vmm × Nat :=
  let s := s.qemuPrintf "Paging INIT\n"
  let r := s.pmm.dumballoc sizeofPageDirectory
  let kernelDir := r.2
  let s := { s with pmm := r.1, kernelDir := kernelDir }
  let s := s.memsetZero kernelDir (1024 * sizeofPageDirectory)
  let s := { s with dir := ⟨fun _ => 0, fun _ => PageDirEntry.zero⟩ }
  let r := s.dumballocTable
  let table := r.2
  let s := r.1.memsetZero table (1024 * sizeofPageTable)
  ({ s with pmm := (s.pmm.dumballoc (0x100000 / 0x1000 * 4)).1 }, table)

/-- paging_init from the end of its loop on. -/
def Vmm.bootMapped (s : Vmm) (table : Nat) : Vmm :=
  let s := s.setPhysical 0 (tableEntry (s.dir.tablesPhysical 0) table)
  let s := s.setTable 0 table
  let s := s.qemuPrintf "Paging enabled setting up heap...\n"
  { s with heapStart := s.pmm.placementaddr, heapCur := s.pmm.placementaddr,
           heapEnd := wrap (s.pmm.placementaddr + heapSize) }.qemuPrintf "DONE"

theorem pagingInit_split (s : Vmm) : s.pagingInit =
    (s.bootBlocks.1.identityLoop s.bootBlocks.2 s.bootBlocks.1.pmm.placementaddr).bootMapped
      s.bootBlocks.2 := rfl

/-- What the loop and the steps behind it do to a state, for every number of rounds. -/
structure BootMapped (b : Vmm) (table : Nat) (t : Vmm) : Prop where
  placed : t.pmm.placementaddr = b.pmm.placementaddr
  bitmap : t.pmm.bitmap = b.pmm.bitmap
  kernelDir : t.kernelDir = b.kernelDir
  tables : t.dir.tables = Function.update b.dir.tables 0 table
  physical : t.dir.tablesPhysical =
    Function.update b.dir.tablesPhysical 0 (tableEntry (b.dir.tablesPhysical 0) table)
  start : t.heapStart = b.pmm.placementaddr
  cur : t.heapCur = b.pmm.placementaddr
  stop : t.heapEnd = wrap (b.pmm.placementaddr + heapSize)
  calls : t.calls = b.calls

theorem bootMapped_spec (b : Vmm) (table count : Nat) :
    BootMapped b table ((b.identityLoop table count).bootMapped table) := by
  obtain ⟨pmm, dir, kernelDir, calls⟩ := identityLoop_rest b table count
  constructor <;>
    simp only [Vmm.bootMapped, Vmm.qemuPrintf, Vmm.setTable, Vmm.setPhysical, Vmm.log,
      Pmm.qemuPrintf, pmm, dir, kernelDir, calls]

section PagingInit

variable (s : Vmm) (room : BootRoom s)
include room

/-- Behind the cleared directory lies the table, and behind it the frame list. -/
theorem bootBlocks_eq : s.bootBlocks = ({ s with
    pmm := ⟨s.bootTable + 0x1400, s.pmm.bitmap, s.pmm.serial ++ ["Paging INIT\n"]⟩
    kernelDir := pageUp s.pmm.placementaddr
    dir := ⟨fun _ => 0, fun _ => PageDirEntry.zero⟩
    entries := fun a =>
      if wsub a s.bootTable < 1024 * sizeofPageTable then Page.zero
      else if wsub a (pageUp s.pmm.placementaddr) < 1024 * sizeofPageDirectory then Page.zero
      else s.entries a
    trace := s.trace ++ [.cleared (pageUp s.pmm.placementaddr) (1024 * sizeofPageDirectory)] ++
      [.newTable s.bootTable] ++ [.cleared s.bootTable (1024 * sizeofPageTable)] },
    s.bootTable) := by
  obtain ⟨word, room⟩ := room
  have up : ∀ a, a % 4096 = 0 → pageUp a = a := by intro a h; unfold pageUp; omega
  have aligned : pageUp s.pmm.placementaddr % 4096 = 0 := by unfold pageUp; omega
  have behind := up (pageUp s.pmm.placementaddr + 8192) (by omega)
  have last := up (pageUp s.pmm.placementaddr + 8192 + 4096) (by omega)
  have dir := dumballoc_eq (s.pmm.qemuPrintf "Paging INIT\n") sizeofPageDirectory word
    (by simp only [Pmm.qemuPrintf, sizeofPageDirectory]; omega)
  simp only [Pmm.qemuPrintf] at dir
  have table : ∀ p : Pmm, p.placementaddr = pageUp s.pmm.placementaddr + sizeofPageDirectory →
      p.dumballoc sizeofPageTable = ({ p with placementaddr := s.bootTable + sizeofPageTable },
        s.bootTable) := by
    intro p here
    simp only [sizeofPageDirectory] at here
    rw [dumballoc_eq p sizeofPageTable (by omega) (by rw [here, behind, sizeofPageTable]; omega),
      here, behind]
    rfl
  have frames : ∀ p : Pmm, p.placementaddr = s.bootTable + sizeofPageTable →
      (p.dumballoc (0x100000 / 0x1000 * 4)).1 = { p with placementaddr := s.bootTable + 0x1400 } := by
    intro p here
    simp only [sizeofPageTable, Vmm.bootTable] at here
    rw [dumballoc_eq p _ (by omega) (by rw [here, last]; omega), here, last]
    rfl
  simp only [Vmm.bootBlocks, Vmm.qemuPrintf, Vmm.memsetZero, Vmm.dumballocTable, Vmm.log,
    Pmm.qemuPrintf, dir, table, frames]

theorem bootBlocks_table : s.bootBlocks.2 = s.bootTable := by
  rw [bootBlocks_eq s room]

theorem pagingInit_booted : BootMapped s.bootBlocks.1 s.bootTable s.pagingInit := by
  rw [pagingInit_split, bootBlocks_table s room]
  exact bootMapped_spec _ _ _

theorem bootBlocks_placed : s.bootBlocks.1.pmm.placementaddr = s.bootTable + 0x1400 := by
  rw [bootBlocks_eq s room]

theorem pagingInit_tables : s.pagingInit.dir.tables = Function.update (fun _ => 0) 0 s.bootTable := by
  rw [(pagingInit_booted s room).tables, bootBlocks_eq s room]

theorem pagingInit_physical : s.pagingInit.dir.tablesPhysical =
    Function.update (fun _ => PageDirEntry.zero) 0 (tableEntry PageDirEntry.zero s.bootTable) := by
  rw [(pagingInit_booted s room).physical, bootBlocks_eq s room]

theorem pagingInit_kernelDir : s.pagingInit.kernelDir = pageUp s.pmm.placementaddr := by
  rw [(pagingInit_booted s room).kernelDir, bootBlocks_eq s room]

theorem bootBlocks_entries (a : Nat) : s.bootBlocks.1.entries a =
    if wsub a s.bootTable < 1024 * sizeofPageTable then Page.zero
    else if wsub a (pageUp s.pmm.placementaddr) < 1024 * sizeofPageDirectory then Page.zero
    else s.entries a := by
  rw [bootBlocks_eq s room]

/-- The loop writes over what the clearing has left. -/
theorem pagingInit_written (count : Nat) (rounds : count = s.bootTable + 0x1400)
    (loop : s.bootTable + 4 * count ≤ 2 ^ 32) (a : Nat) :
    s.pagingInit.entries a =
      if s.bootTable ≤ a ∧ a < s.bootTable + 4 * count ∧ (a - s.bootTable) % 4 = 0 then
        identityEntry (s.bootBlocks.1.entries a) ((a - s.bootTable) / 4)
      else s.bootBlocks.1.entries a := by
  -- the rounds stay a variable: a sum with a literal would be unfolded round by round
  rw [pagingInit_split, bootBlocks_table s room, bootBlocks_placed s room, ← rounds]
  exact identityLoop_closed s.bootBlocks.1 s.bootTable count loop a

theorem pagingInit_entries (loop : s.bootTable + 4 * (s.bootTable + 0x1400) ≤ 2 ^ 32)
    (cleared : ∀ a, s.entries a = Page.zero) : s.pagingInit.entries = fun a =>
      if s.bootTable ≤ a ∧ a < s.bootTable + 4 * (s.bootTable + 0x1400) ∧
          (a - s.bootTable) % 4 = 0 then
        identityEntry Page.zero ((a - s.bootTable) / 4)
      else Page.zero := by
  funext a
  have blank : s.bootBlocks.1.entries a = Page.zero := by
    rw [bootBlocks_entries s room, cleared, ite_self, ite_self]
  rw [pagingInit_written s room _ rfl loop, blank]

theorem pagingInit_pmm : s.pagingInit.pmm.placementaddr = s.bootTable + 0x1400 ∧
    s.pagingInit.pmm.bitmap = s.pmm.bitmap := by
  have mapped := pagingInit_booted s room
  rw [mapped.placed, mapped.bitmap, bootBlocks_eq s room]
  exact ⟨rfl, rfl⟩

theorem pagingInit_heap : s.pagingInit.heapStart = s.bootTable + 0x1400 ∧
    s.pagingInit.heapCur = s.bootTable + 0x1400 ∧
    s.pagingInit.heapEnd = s.bootTable + 0x401400 ∧ s.pagingInit.calls = s.calls := by
  have mapped := pagingInit_booted s room
  have placed := bootBlocks_placed s room
  have fits := room.2
  have at_table : s.bootTable = pageUp s.pmm.placementaddr + 0x2000 := rfl
  refine ⟨mapped.start.trans placed, mapped.cur.trans placed, ?_, ?_⟩
  · rw [mapped.stop, placed]
    simp only [wrap, heapSize, pageSize]
    omega
  · rw [mapped.calls, bootBlocks_eq s room]

end PagingInit

end RiseOS
