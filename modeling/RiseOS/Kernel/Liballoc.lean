import RiseOS.Kernel.Rise
import RiseOS.Library.Memory

/-! kernel/liballoc.c: malloc, free, calloc and realloc with their tags in the heap's own
bytes, over the hooks of rise.c. The page tables that allocate_page makes lie in the heap
too, and `PageHooks.aliased` has them in the same bytes; `PageHooks.apart` takes the hooks
as not touching the heap. A loop that has not ended after 2^32 rounds never does, and a
call that spins on the lock never returns: both are `none`. -/
namespace RiseOS
open Words

def liballocMagic : Nat := 0xc001c0de
def maxComplete : Int := 5
def maxExp : Int := 32
def minExp : Int := 8
def libPageSize : Nat := 4096
def libPageCount : Nat := 16

/-- The fields of struct boundary_tag in order; all of them are words. -/
inductive TagField where
  | magic | size | realSize | index | splitLeft | splitRight | next | prev
  deriving DecidableEq

def TagField.offset : TagField → Nat
  | .magic => 0 | .size => 4 | .realSize => 8 | .index => 12
  | .splitLeft => 16 | .splitRight => 20 | .next => 24 | .prev => 28

def sizeofTag : Nat := 32

structure Heap where
  mem : Memory
  freePages : Int → Nat
  completePages : Int → Int
  initialized : Nat
  lock : Nat
  vmm : Vmm

/-- liballoc_alloc and liballoc_free as calls on the heap. -/
structure PageHooks where
  alloc : Heap → (pages : Int) → Option (Heap × Nat)
  free : Heap → (ptr : Nat) → (pages : Int) → Option (Heap × Int)

/-- The hooks with their stores taken as sparing the heap's bytes. -/
def PageHooks.apart : PageHooks where
  alloc s pages := (s.vmm.liballocAlloc pages).map fun r => ({ s with vmm := r.1 }, r.2)
  free s ptr pages := (s.vmm.liballocFree ptr pages).map fun r => ({ s with vmm := r.1 }, r.2)

/-- The addresses whose page entries are bytes of the heap: those from heap_start on. -/
def Vmm.Aliases (s : Vmm) (a : Nat) : Prop := s.heapStart ≤ a / 4 * 4 ∧ a < 2 ^ 32

instance (s : Vmm) (a : Nat) : Decidable (s.Aliases a) := inferInstanceAs (Decidable (_ ∧ _))

/-- The paging as the hooks find it, with the entries that the heap's bytes are. -/
def Heap.paging (s : Heap) : Vmm :=
  { s.vmm with entries := fun a =>
      if s.vmm.Aliases a then Page.ofWord (load32 s.mem a) else s.vmm.entries a }

/-- The heap with the paging that the hooks leave: what they stored from heap_start on
is in its bytes. -/
def Heap.withPaging (s : Heap) (v : Vmm) : Heap :=
  { s with
    mem := fun a =>
      if s.vmm.Aliases a then BitVec.ofNat 8 ((v.entries (a / 4 * 4)).word / 256 ^ (a % 4))
      else s.mem a
    vmm := { v with entries := fun a =>
      if s.vmm.Aliases a then s.vmm.entries a else v.entries a } }

/-- The hooks with page entries and heap in one memory. The bitmap is kept apart. -/
def PageHooks.aliased : PageHooks where
  alloc s pages := (s.paging.liballocAlloc pages).map fun r => (s.withPaging r.1, r.2)
  free s ptr pages := (s.paging.liballocFree ptr pages).map fun r => (s.withPaging r.1, r.2)

def Heap.get (s : Heap) (field : TagField) (tag : Nat) : Nat :=
  load32 s.mem (wrap (field.offset + tag))

def Heap.set (s : Heap) (field : TagField) (tag v : Nat) : Heap :=
  { s with mem := store32 s.mem (wrap (field.offset + tag)) v }

/-- `if (tag != NULL) tag->field = v` -/
def Heap.setUnlessNull (s : Heap) (field : TagField) (tag v : Nat) : Heap :=
  if tag ≠ 0 then s.set field tag v else s

def Heap.index (s : Heap) (tag : Nat) : Int := signed (s.get .index tag)

def Heap.setFreePages (s : Heap) (i : Int) (tag : Nat) : Heap :=
  { s with freePages := Function.update s.freePages i tag }

def Heap.setCompletePages (s : Heap) (i : Int) (n : Int) : Heap :=
  { s with completePages := Function.update s.completePages i n }

/-- The loop of getexp, `count` rounds before MAXEXP. -/
def getexpShift (size : Nat) : (count shift : Nat) → Nat
  | 0, shift => shift
  | count + 1, shift => if 2 ^ shift > size then shift else getexpShift size count (shift + 1)

def getexp (size : Nat) : Int :=
  if size < 2 ^ 8 then -1 else (getexpShift size 24 8 : Int) - 1

/-- The bucket that insert_tag uses. -/
def Heap.realIndex (s : Heap) (tag : Nat) (index : Int) : Int :=
  if index < 0 then
    if getexp (wsub (s.get .realSize tag) sizeofTag) < minExp then minExp
    else getexp (wsub (s.get .realSize tag) sizeofTag)
  else index

def Heap.insertTag (s : Heap) (tag : Nat) (index : Int) : Heap :=
  let realIndex := s.realIndex tag index
  let s := s.set .index tag (ofInt realIndex)
  let head := s.freePages realIndex
  let s := if head ≠ 0 then (s.set .prev head tag).set .next tag head else s
  s.setFreePages realIndex tag

def Heap.removeTag (s : Heap) (tag : Nat) : Heap :=
  let s := if s.freePages (s.index tag) = tag then
    s.setFreePages (s.index tag) (s.get .next tag) else s
  let s := s.setUnlessNull .next (s.get .prev tag) (s.get .next tag)
  let s := s.setUnlessNull .prev (s.get .next tag) (s.get .prev tag)
  ((s.set .next tag 0).set .prev tag 0).set .index tag (ofInt (-1))

def Heap.meltLeft (s : Heap) (tag : Nat) : Heap × Nat :=
  let left := s.get .splitLeft tag
  let s := s.set .realSize left (wrap (s.get .realSize left + s.get .realSize tag))
  let s := s.set .splitRight left (s.get .splitRight tag)
  (s.setUnlessNull .splitLeft (s.get .splitRight tag) left, left)

def Heap.absorbRight (s : Heap) (tag : Nat) : Heap :=
  let right := s.get .splitRight tag
  let s := s.removeTag right
  let s := s.set .realSize tag (wrap (s.get .realSize tag + s.get .realSize right))
  let s := s.set .splitRight tag (s.get .splitRight right)
  s.setUnlessNull .splitLeft (s.get .splitRight right) tag

def Heap.newTag (s : Heap) (tag : Nat) : Nat := wrap (wrap (sizeofTag + tag) + s.get .size tag)

/-- The header of the new tag, and the links and sizes around it. -/
def Heap.cutTag (s : Heap) (tag : Nat) : Heap :=
  let remainder := wsub (wsub (s.get .realSize tag) sizeofTag) (s.get .size tag)
  let newTag := s.newTag tag
  let s := s.set .magic newTag liballocMagic
  let s := s.set .realSize newTag remainder
  let s := s.set .next newTag 0
  let s := s.set .prev newTag 0
  let s := s.set .splitLeft newTag tag
  let s := s.set .splitRight newTag (s.get .splitRight tag)
  let s := s.setUnlessNull .splitLeft (s.get .splitRight newTag) newTag
  let s := s.set .splitRight tag newTag
  s.set .realSize tag (wsub (s.get .realSize tag) (s.get .realSize newTag))

def Heap.splitTag (s : Heap) (tag : Nat) : Heap := (s.cutTag tag).insertTag (s.newTag tag) (-1)

/-- The page count of allocate_new_tag for a request of `usage` bytes. -/
def neededPages (usage : Nat) : Nat :=
  let pages := usage / libPageSize
  let pages := if usage % libPageSize ≠ 0 then pages + 1 else pages
  if pages < libPageCount then libPageCount else pages

def Heap.writeTag (s : Heap) (tag size realSize : Nat) : Heap :=
  let s := (s.set .magic tag liballocMagic).set .size tag size
  let s := (s.set .realSize tag realSize).set .index tag (ofInt (-1))
  let s := (s.set .next tag 0).set .prev tag 0
  (s.set .splitLeft tag 0).set .splitRight tag 0

def Heap.allocateNewTag (s : Heap) (size : Nat) (hooks : PageHooks := .apart) : Option (Heap × Nat) :=
  let pages := neededPages (wrap (sizeofTag + size))
  (hooks.alloc s pages).map fun r =>
    let tag := r.2
    let s := r.1
    if tag = 0 then (s, 0) else (s.writeTag tag size (wrap (pages * libPageSize)), tag)

theorem allocateNewTag_apart (s : Heap) (size : Nat) : s.allocateNewTag size =
    (s.vmm.liballocAlloc (neededPages (wrap (sizeofTag + size)))).map fun r =>
      if r.2 = 0 then ({ s with vmm := r.1 }, 0)
      else (({ s with vmm := r.1 } : Heap).writeTag r.2 size
        (wrap (neededPages (wrap (sizeofTag + size)) * libPageSize)), r.2) := by
  simp only [Heap.allocateNewTag, PageHooks.apart, Option.map_map]
  rfl

def Heap.liballocLock (s : Heap) : Option Heap :=
  if s.lock = 0 then some { s with lock := 1 } else none

def Heap.liballocUnlock (s : Heap) : Heap := { s with lock := 0 }

def Heap.initialize (s : Heap) : Heap :=
  if s.initialized = 0 then
    { s with
      freePages := fun i => if 0 ≤ i ∧ i < maxExp then 0 else s.freePages i
      completePages := fun i => if 0 ≤ i ∧ i < maxExp then 0 else s.completePages i
      initialized := 1 }
  else s

def loopFuel : Nat := 2 ^ 32

def Heap.search (s : Heap) (size : Nat) : (fuel tag : Nat) → Option Nat
  | 0, _ => none
  | fuel + 1, tag =>
      if tag = 0 then some 0
      else if wsub (s.get .realSize tag) sizeofTag ≥ wrap (sizeofTag + size) then some tag
      else s.search size fuel (s.get .next tag)

/-- The list that malloc looks at, and the one that free puts a tag of `size` into. -/
def bucket (size : Nat) : Int := if getexp size < minExp then minExp else getexp size

def Heap.complete (s : Heap) (tag : Nat) : Prop := s.get .splitLeft tag = 0 ∧ s.get .splitRight tag = 0

instance (s : Heap) (tag : Nat) : Decidable (s.complete tag) := inferInstanceAs (Decidable (_ ∧ _))

/-- A tag for the request: the one found, out of its list, or a new one. -/
def Heap.obtainTag (s : Heap) (size found : Nat) (hooks : PageHooks := .apart) :
    Option (Heap × Nat) :=
  if found = 0 then s.allocateNewTag size hooks
  else
    let s := s.removeTag found
    some (if s.complete found then
      s.setCompletePages (bucket size) (s.completePages (bucket size) - 1) else s, found)

/-- Note the size, and split what is left off if it is worth a tag. -/
def Heap.useTag (s : Heap) (tag size : Nat) : Heap :=
  let s := s.set .size tag size
  let remainder := wsub (wsub (s.get .realSize tag) size) (sizeofTag * 2)
  if signed remainder > 0 ∧ getexp remainder ≥ 0 then s.splitTag tag else s

/-- MODE is MODE_BEST, so `getexp(size) + MODE` is `getexp size`. -/
def Heap.malloc (s : Heap) (size : Nat) (hooks : PageHooks := .apart) : Option (Heap × Nat) :=
  s.liballocLock.bind fun s =>
    let s := s.initialize
    (s.search size loopFuel (s.freePages (bucket size))).bind fun found =>
      (s.obtainTag size found hooks).map fun r =>
        if r.2 = 0 then (r.1.liballocUnlock, 0)
        else ((r.1.useTag r.2 size).liballocUnlock, wrap (sizeofTag + r.2))

/-- MELT LEFT: while the left neighbour is free. -/
def Heap.meltLoop : (fuel : Nat) → Heap → (tag : Nat) → Option (Heap × Nat)
  | 0, _, _ => none
  | fuel + 1, s, tag =>
      if s.get .splitLeft tag ≠ 0 ∧ s.index (s.get .splitLeft tag) ≥ 0 then
        let r := s.meltLeft tag
        (r.1.removeTag r.2).meltLoop fuel r.2
      else some (s, tag)

/-- MELT RIGHT: while the right neighbour is free. -/
def Heap.absorbLoop : (fuel : Nat) → Heap → (tag : Nat) → Option Heap
  | 0, _, _ => none
  | fuel + 1, s, tag =>
      if s.get .splitRight tag ≠ 0 ∧ s.index (s.get .splitRight tag) ≥ 0 then
        (s.absorbRight tag).absorbLoop fuel tag
      else some s

def Heap.melted (s : Heap) (tag : Nat) : Option (Heap × Nat) :=
  (s.meltLoop loopFuel tag).bind fun r => (r.1.absorbLoop loopFuel r.2).map fun s => (s, r.2)

def Heap.putBack (s : Heap) (tag : Nat) (hooks : PageHooks := .apart) : Option Heap :=
  let index := bucket (wsub (s.get .realSize tag) sizeofTag)
  if s.complete tag then
    if s.completePages index = maxComplete then
      let pages := neededPages (s.get .realSize tag)
      (hooks.free s tag pages).map fun r => r.1.liballocUnlock
    else
      let s := s.setCompletePages index (s.completePages index + 1)
      some (s.insertTag tag index).liballocUnlock
  else some (s.insertTag tag index).liballocUnlock

theorem putBack_apart (s : Heap) (tag : Nat) : s.putBack tag =
    if s.complete tag then
      if s.completePages (bucket (wsub (s.get .realSize tag) sizeofTag)) = maxComplete then
        (s.vmm.liballocFree tag (neededPages (s.get .realSize tag))).map fun r =>
          ({ s with vmm := r.1 } : Heap).liballocUnlock
      else
        some ((s.setCompletePages (bucket (wsub (s.get .realSize tag) sizeofTag))
          (s.completePages (bucket (wsub (s.get .realSize tag) sizeofTag)) + 1)).insertTag tag
            (bucket (wsub (s.get .realSize tag) sizeofTag))).liballocUnlock
    else some (s.insertTag tag (bucket (wsub (s.get .realSize tag) sizeofTag))).liballocUnlock := by
  simp only [Heap.putBack, PageHooks.apart, Option.map_map]
  rfl

def Heap.free (s : Heap) (ptr : Nat) (hooks : PageHooks := .apart) : Option Heap :=
  if ptr = 0 then some s
  else s.liballocLock.bind fun s =>
    let tag := wsub ptr sizeofTag
    if s.get .magic tag ≠ liballocMagic then some s.liballocUnlock
    else (s.meltLoop loopFuel tag).bind fun r =>
      (r.1.absorbLoop loopFuel r.2).bind fun s => s.putBack r.2 hooks

/-- Its counter is an int, which `i < n` compares as an unsigned word. -/
def liballocMemset (m : Memory) (p : Nat) (c : Int) (n : Nat) : Memory × Nat :=
  (fillBytes p (BitVec.ofInt 8 c) n 0 m, p)

/-- The product is kept as an int, and the bytes are cleared even when malloc
returns NULL. -/
def Heap.calloc (s : Heap) (nobj size : Nat) (hooks : PageHooks := .apart) : Option (Heap × Nat) :=
  let realSize := wrap (nobj * size)
  (s.malloc realSize hooks).map fun r =>
    ({ r.1 with mem := (liballocMemset r.1.mem r.2 0 realSize).1 }, r.2)

/-- The word loop of liballoc_memcpy; the list collects the addresses of its stores. -/
def copyWords : (count : Nat) → Memory × List Nat → (ldest lsrc : Nat) → Memory × List Nat
  | 0, m, _, _ => m
  | count + 1, m, ldest, lsrc =>
      copyWords count (store32 m.1 ldest (load32 m.1 lsrc), m.2 ++ [ldest]) (wrap (ldest + 4))
        (wrap (lsrc + 4))

def copyBytes : (count : Nat) → Memory × List Nat → (cdest csrc : Nat) → Memory × List Nat
  | 0, m, _, _ => m
  | count + 1, m, cdest, csrc =>
      copyBytes count (Function.update m.1 cdest (m.1 csrc), m.2 ++ [cdest]) (wrap (cdest + 1))
        (wrap (csrc + 1))

def liballocMemcpy (m : Memory) (s1 s2 n : Nat) : Memory × List Nat :=
  copyBytes (n % 4) (copyWords (n / 4) (m, []) s1 s2) (wrap (s1 + n / 4 * 4))
    (wrap (s2 + n / 4 * 4))

/-- The pointer that comes back, and where liballoc_memcpy stored. `real_size` is
compared with `size` as an unsigned word. -/
def Heap.realloc (s : Heap) (p size : Nat) (hooks : PageHooks := .apart) :
    Option (Heap × Nat × List Nat) :=
  if size = 0 then (s.free p hooks).map fun s => (s, 0, [])
  else if p = 0 then (s.malloc size hooks).map fun r => (r.1, r.2, [])
  else s.liballocLock.bind fun s =>
    let tag := wsub p sizeofTag
    let realSize := s.get .size tag
    let s := s.liballocUnlock
    let realSize := if realSize > size then size else realSize
    (s.malloc size hooks).bind fun r =>
      let copied := liballocMemcpy r.1.mem r.2 p realSize
      ({ r.1 with mem := copied.1 }.free p hooks).map fun s => (s, r.2, copied.2)

end RiseOS
