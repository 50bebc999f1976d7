import RiseOS.Kernel.Pmm

/-! kernel/vmm.c: page directories, page tables, regions and paging_init.
Page tables live in `entries`, a memory of page entries at their byte addresses;
Kernel/Liballoc puts it together with the heap's bytes. `trace` records the stores that
go through pointers from dumballoc and the outcome of each frame request. -/
namespace RiseOS
open Words

/-- struct page, one 32-bit entry of a page table. -/
structure Page where
  present : Bool
  writeable : Bool
  user : Bool
  rsvd0 : BitVec 2
  accessed : Bool
  dirty : Bool
  rsvd1 : BitVec 2
  avail : BitVec 3
  frame : BitVec 20

/-- The entry as the word it is in memory. -/
def Page.word (p : Page) : Nat :=
  p.present.toNat + 2 * p.writeable.toNat + 4 * p.user.toNat + 8 * p.rsvd0.toNat +
    32 * p.accessed.toNat + 64 * p.dirty.toNat + 128 * p.rsvd1.toNat + 512 * p.avail.toNat +
    4096 * p.frame.toNat

def Page.ofWord (w : Nat) : Page where
  present := w % 2 = 1
  writeable := w / 2 % 2 = 1
  user := w / 4 % 2 = 1
  rsvd0 := BitVec.ofNat 2 (w / 8)
  accessed := w / 32 % 2 = 1
  dirty := w / 64 % 2 = 1
  rsvd1 := BitVec.ofNat 2 (w / 128)
  avail := BitVec.ofNat 3 (w / 512)
  frame := BitVec.ofNat 20 (w / 4096)

theorem Page.word_ofWord {w : Nat} (word : w < 2 ^ 32) : (Page.ofWord w).word = w := by
  have bit : ∀ n : Nat, (decide (n % 2 = 1)).toNat = n % 2 := by
    intro n
    rcases Nat.mod_two_eq_zero_or_one n with zero | one
    · simp [zero]
    · simp [one]
  simp only [Page.word, Page.ofWord, bit, BitVec.toNat_ofNat]
  omega

structure PageDirEntry where
  present : Bool
  rw : Bool
  user : Bool
  wThrough : Bool
  cache : Bool
  access : Bool
  reserved : Bool
  pageSize : Bool
  global : Bool
  available : BitVec 3
  frame : BitVec 20

def Page.zero : Page := ⟨false, false, false, 0, false, false, 0, 0, 0⟩
def PageDirEntry.zero : PageDirEntry :=
  ⟨false, false, false, false, false, false, false, false, false, 0, 0⟩

structure PageDirectory where
  tables : Nat → Nat
  tablesPhysical : Nat → PageDirEntry

def sizeofPageTable : Nat := 4096
def sizeofPageDirectory : Nat := 8192
def heapSize : Nat := 1024 * pageSize

/-- `cleared ptr len` is a memset, `newTable` the dumballoc block of a page table,
`store` a 4-byte store, `frame` the result of kalloc_page_frame, and `mapped entry
frame` the entry that is then made present with this physaddr_t. -/
inductive Event where
  | newTable (table : Nat)
  | cleared (ptr len : Nat)
  | store (ptr : Nat)
  | frame (result : Nat)
  | mapped (entry frame : Nat)
  deriving DecidableEq

/-- Calls of the two liballoc hooks, with the pointer that came back or went in. -/
inductive HookCall where
  | refused (pages : Int)
  | alloc (pages : Int) (rez : Nat)
  | free (ptr : Nat) (pages : Int)
  deriving DecidableEq

/-- The globals of pmm.c, vmm.c and rise.c. `kernelDir` is where the directory lies. -/
structure Vmm where
  pmm : Pmm
  kernelDir : Nat
  dir : PageDirectory
  entries : Nat → Page
  heapStart : Nat
  heapEnd : Nat
  heapCur : Nat
  trace : List Event
  calls : List HookCall

def pagedirIndex (vaddr : Nat) : Nat := vaddr >>> 22
def pagetblIndex (vaddr : Nat) : Nat := (vaddr >>> 12) &&& 0x3FF
def pageframeIndex (vaddr : Nat) : Nat := vaddr &&& 0xFFF

def Vmm.qemuPrintf (s : Vmm) (text : String) : Vmm := { s with pmm := s.pmm.qemuPrintf text }
def Vmm.log (s : Vmm) (e : Event) : Vmm := { s with trace := s.trace ++ [e] }

def pageAddress (table i : Nat) : Nat := wrap (table + 4 * i)

/-- `table->pages[i]`, also for an `i` beyond the table. -/
def Vmm.page (s : Vmm) (table i : Nat) : Page := s.entries (pageAddress table i)

def Vmm.setPage (s : Vmm) (table i : Nat) (p : Page) : Vmm :=
  { s with entries := Function.update s.entries (pageAddress table i) p }.log
    (.store (pageAddress table i))

def Vmm.setTable (s : Vmm) (i table : Nat) : Vmm :=
  { s with dir := { s.dir with tables := Function.update s.dir.tables i table } }.log
    (.store (wrap (s.kernelDir + 4 * i)))

def Vmm.setPhysical (s : Vmm) (i : Nat) (e : PageDirEntry) : Vmm :=
  { s with dir := { s.dir with tablesPhysical := Function.update s.dir.tablesPhysical i e } }.log
    (.store (wrap (s.kernelDir + 4096 + 4 * i)))

/-- memset(ptr, 0, len) as page entries see it. -/
def Vmm.memsetZero (s : Vmm) (ptr len : Nat) : Vmm :=
  { s with entries := fun a => if wsub a ptr < len then Page.zero else s.entries a }.log
    (.cleared ptr len)

def Vmm.dumballocTable (s : Vmm) : Vmm × Nat :=
  let r := s.pmm.dumballoc sizeofPageTable
  ({ s with pmm := r.1 }.log (.newTable r.2), r.2)

def tableEntry (old : PageDirEntry) (table : Nat) : PageDirEntry :=
  { old with frame := BitVec.ofNat 20 (table >>> 12), present := true, rw := true, user := true,
             pageSize := false }

def Vmm.virtPhys (s : Vmm) (vaddr : Nat) : Vmm × Nat :=
  let pdindex := pagedirIndex vaddr
  let ptindex := pagetblIndex vaddr
  let pageFrameOffset := pageframeIndex vaddr
  if s.dir.tables pdindex = 0 then
    (s.qemuPrintf "virt_phys: The page directory dir entry does not exist\n", 0)
  else
    let table := s.dir.tables pdindex
    if !(s.page table ptindex).present then
      (s.qemuPrintf "virt_phys: The page table entry does not exist\n", 0)
    else
      let t := (s.page table ptindex).frame.toNat
      (s, wrap ((t >>> 12) + pageFrameOffset))

/-- The block of allocate_page that makes a table for a slot that has none.
The memset clears 1024 tables' worth of bytes. -/
def Vmm.createTable (s : Vmm) (pdindex : Nat) : Vmm :=
  let r := s.dumballocTable
  let table := r.2
  let s := r.1.memsetZero table (1024 * sizeofPageTable)
  let s := s.setPhysical pdindex (tableEntry (s.dir.tablesPhysical pdindex) table)
  s.setTable pdindex table

def mappedEntry (old : Page) (frame : Nat) : Page :=
  { old with frame := BitVec.ofNat 20 frame, present := true, writeable := true, user := true }

/-- The block that gets a frame for the entry, whatever kalloc_page_frame returns. -/
def Vmm.mapPage (s : Vmm) (table ptindex : Nat) : Vmm :=
  let r := s.pmm.kallocPageFrame
  let frame := r.2
  let s := { s with pmm := r.1 }.log (.frame frame)
  (s.setPage table ptindex (mappedEntry (s.page table ptindex) frame)).log
    (.mapped (pageAddress table ptindex) frame)

def Vmm.withTable (s : Vmm) (pdindex : Nat) : Vmm :=
  if s.dir.tables pdindex = 0 then s.createTable pdindex else s

def Vmm.allocatePage (s : Vmm) (vaddr : Nat) : Vmm :=
  let pdindex := pagedirIndex vaddr
  let ptindex := pagetblIndex vaddr
  let s := s.withTable pdindex
  let table := s.dir.tables pdindex
  if !(s.page table ptindex).present then s.mapPage table ptindex else s

def Vmm.freePage (s : Vmm) (vaddr : Nat) : Vmm :=
  let pdindex := pagedirIndex vaddr
  let ptindex := pagetblIndex vaddr
  if s.dir.tables pdindex = 0 then
    s.qemuPrintf "virt_phys: The page directory dir entry does not exist\n"
  else
    let table := s.dir.tables pdindex
    if !(s.page table ptindex).present then
      s.qemuPrintf "virt_phys: The page table entry does not exist\n"
    else
      let t := (s.page table ptindex).frame.toNat
      let s := { s with pmm := s.pmm.kfreePageFrame t }
      s.setPage table ptindex
        { s.page table ptindex with present := false, writeable := false }

/-- `while (start <= end) { body(start); start += PAGE_SIZE; }` on 32-bit words.
There are 2^20 page addresses, so a loop still running after that many rounds
has seen them all and never ends: `none`. -/
def regionLoop (body : Vmm → Nat → Vmm) : (fuel start stop : Nat) → Vmm → Option Vmm
  | 0, _, _, _ => none
  | fuel + 1, start, stop, s =>
      if start ≤ stop then regionLoop body fuel (wrap (start + pageSize)) stop (body s start)
      else some s

def regionFuel : Nat := 2 ^ 20 + 1

def Vmm.allocateRegion (s : Vmm) (startVa endVa : Nat) : Option Vmm :=
  regionLoop Vmm.allocatePage regionFuel (startVa &&& 0xfffff000) (endVa &&& 0xfffff000) s

def Vmm.freeRegion (s : Vmm) (startVa endVa : Nat) : Option Vmm :=
  regionLoop Vmm.freePage regionFuel (startVa &&& 0xfffff000) (endVa &&& 0xfffff000) s

/-- One round of paging_init's loop: `table->pages[i]` is made an identity entry. -/
def Vmm.identityPage (s : Vmm) (table i : Nat) : Vmm :=
  s.setPage table i
    { s.page table i with
      present := true, writeable := true, user := false, frame := BitVec.ofNat 20 i }

/-- The rounds below `count`; the source runs to `placementaddr`, a byte address. -/
def Vmm.identityLoop (s : Vmm) (table : Nat) : (count : Nat) → Vmm
  | 0 => s
  | count + 1 => (s.identityLoop table count).identityPage table count

def Vmm.pagingInit (s : Vmm) : Vmm :=
  let s := s.qemuPrintf "Paging INIT\n"
  let r := s.pmm.dumballoc sizeofPageDirectory
  let kernelDir := r.2
  let s := { s with pmm := r.1, kernelDir := kernelDir }
  let s := s.memsetZero kernelDir (1024 * sizeofPageDirectory)
  let s := { s with dir := ⟨fun _ => 0, fun _ => PageDirEntry.zero⟩ }
  let r := s.dumballocTable
  let table := r.2
  let s := r.1.memsetZero table (1024 * sizeofPageTable)
  let nframes := 0x100000 / 0x1000
  let s := { s with pmm := (s.pmm.dumballoc (nframes * 4)).1 }
  let s := s.identityLoop table s.pmm.placementaddr
  let s := s.setPhysical 0 (tableEntry (s.dir.tablesPhysical 0) table)
  let s := s.setTable 0 table
  let s := s.qemuPrintf "Paging enabled setting up heap...\n"
  { s with heapStart := s.pmm.placementaddr, heapCur := s.pmm.placementaddr,
           heapEnd := wrap (s.pmm.placementaddr + heapSize) }.qemuPrintf "DONE"

/-- The two-level walk of the processor, from the physical directory entries. -/
def Vmm.walk (s : Vmm) (vaddr : Nat) : Option Nat :=
  let pde := s.dir.tablesPhysical (vaddr >>> 22)
  if pde.present then
    let pte := s.entries ((pde.frame.toNat <<< 12) + 4 * ((vaddr >>> 12) % 1024))
    if pte.present then some ((pte.frame.toNat <<< 12) ||| (vaddr &&& 0xFFF)) else none
  else none

end RiseOS
