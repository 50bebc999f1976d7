import RiseOS.Library.Words

/-! kernel/pmm.c: the frame bitmap and the frame allocator, together with
dumballoc of kernel/vmm.c, which moves the same `placementaddr`.
The bitmap is a function on word indices, so a reading beyond BITMAP_SIZE sees
the words that follow the array in memory, as the compiled code does. They are kept apart
from the other variables, of which the linker may place one there. -/
namespace RiseOS
open Words

def bitmapSize : Nat := 32768
def pageSize : Nat := 0x1000
def blocksPerBucket : Nat := 8

/-- The scan bound of kalloc_page_frame, `(1024 * 1024 * 1096) / PAGE_SIZE`. -/
def frameLimit : Nat := 280576

def noFrame : Nat := 0xFFFFFFFF

abbrev Bitmap := Nat → BitVec 32

/-- SETBIT(i): eight frames to a 32-bit word. -/
def setbit (bitmap : Bitmap) (i : Nat) : Bitmap :=
  Function.update bitmap (i / blocksPerBucket)
    (bitmap (i / blocksPerBucket) ||| (1#32 <<< (i % blocksPerBucket)))

def clearbit (bitmap : Bitmap) (i : Nat) : Bitmap :=
  Function.update bitmap (i / blocksPerBucket)
    (bitmap (i / blocksPerBucket) &&& ~~~(1#32 <<< (i % blocksPerBucket)))

def isset (bitmap : Bitmap) (i : Nat) : Bool :=
  (bitmap (i / blocksPerBucket) >>> (i % blocksPerBucket)) &&& 1#32 != 0#32

/-- BLOCK_ALIGN always adds a page, also to an aligned address. -/
def blockAlign (addr : Nat) : Nat := wrap (0x1000 + (addr &&& 0xFFFFF000))

/-- The globals of pmm.c; `serial` collects what qemu_printf is given. -/
structure Pmm where
  placementaddr : Nat
  bitmap : Bitmap
  serial : List String

def Pmm.qemuPrintf (s : Pmm) (text : String) : Pmm := { s with serial := s.serial ++ [text] }

def findClear (bitmap : Bitmap) : (count i : Nat) → Option Nat
  | 0, _ => none
  | count + 1, i => if isset bitmap i then findClear bitmap count (i + 1) else some i

@[irreducible] def frameAddress (placementaddr i : Nat) : Nat :=
  blockAlign (wrap (placementaddr + wrap (i * 0x1000)))

/-- `for (i = 0; i < placementaddr; i += PAGE_SIZE) SETBIT(i);` on a 32-bit `i`, which
has 2^20 values: a loop that outlasts them has wrapped and never ends, `none`. -/
def markLoop (placementaddr : Nat) : (fuel i : Nat) → Bitmap → Option Bitmap
  | 0, _, _ => none
  | fuel + 1, i, bitmap =>
      if i < placementaddr then
        markLoop placementaddr fuel (wrap (i + pageSize)) (setbit bitmap i)
      else some bitmap

def markFuel : Nat := 2 ^ 20 + 1

/-- The `placementaddr` of pmm_init; `bitmapAt` is the array's address. -/
def initPlacement (placementaddr bitmapAt : Nat) : Nat :=
  if placementaddr = 0 then blockAlign (wrap (bitmapAt + 4 * (bitmapSize + pageSize)))
  else placementaddr

def Pmm.pmmInit (s : Pmm) (bitmapAt : Nat) : Option Pmm :=
  let s := { s with bitmap := fun w => if w < bitmapSize then 0#32 else s.bitmap w }
  let s := { s with placementaddr := initPlacement s.placementaddr bitmapAt }
  let s := s.qemuPrintf
    ("END KERNEL ADDR 0x" ++ String.ofList (Nat.toDigits 16 s.placementaddr) ++ " \n")
  (markLoop s.placementaddr markFuel 0 s.bitmap).map (fun bitmap => { s with bitmap := bitmap })

/-- The flag `set` is not read: a set bit is cleared and a clear one set. -/
def Pmm.setPageReserved (s : Pmm) (addr : Nat) (_set : Bool) : Pmm :=
  if !isset s.bitmap addr then { s with bitmap := setbit s.bitmap addr }
  else { s with bitmap := clearbit s.bitmap addr }

/-- The bitmap is indexed with the address itself. -/
def Pmm.kallocPageFrameAt (s : Pmm) (addr : Nat) : Pmm × Nat :=
  let addr := blockAlign addr
  if !isset s.bitmap addr then (s.setPageReserved addr true, addr)
  else (s.qemuPrintf "Cannot Allocate Page Frame\n", 0)

def Pmm.kallocPageFrame (s : Pmm) : Pmm × Nat :=
  match findClear s.bitmap frameLimit 0 with
  | some i => ({ s with bitmap := setbit s.bitmap i }, frameAddress s.placementaddr i)
  | none => (s.qemuPrintf "Failed to allocate page frame: out of mem!\n", noFrame)

def Pmm.kfreePageFrame (s : Pmm) (addr : Nat) : Pmm :=
  let addr := wsub addr s.placementaddr
  if addr = 0 then
    let idx := addr
    { s with bitmap := clearbit s.bitmap idx }
  else
    let idx := addr / 0x1000
    { s with bitmap := clearbit s.bitmap idx }

def Pmm.dumballoc (s : Pmm) (sz : Nat) : Pmm × Nat :=
  let placementaddr :=
    if s.placementaddr &&& 0xFFF ≠ 0 then wrap (0x1000 + (s.placementaddr &&& 0xFFFFF000))
    else s.placementaddr
  ({ s with placementaddr := wrap (sz + placementaddr) }, placementaddr)

end RiseOS
