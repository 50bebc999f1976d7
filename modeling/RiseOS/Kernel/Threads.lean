import RiseOS.Kernel.Liballoc
import RiseOS.Library.Locks

/-! kernel/spinlock.h, the lock hooks of rise.c, and malloc, free and realloc of
liballoc.c as commands that threads interleave. A command's name is its statement's. -/
namespace RiseOS
open Words Locks

inductive HeapFn where
  | spinLock | spinUnlock | liballocLock | liballocUnlock | malloc | free | realloc
  deriving DecidableEq

/-- The statements of malloc, free and realloc that read or write more than the lock. -/
inductive HeapAct where
  | clearLists | chooseIndex | firstTag | nextTag | allocateNewTag | newIndex | removeTag
  | uncountComplete | setSize | chooseRemainder | splitTag | ptrOfTag | returnNull | returnPtr
  | tagOfPtr | meltLeft | absorbRight | realIndex | liballocFree | countComplete | insertTag
  | readSize | clampSize | takeResult | liballocMemcpy
  deriving DecidableEq

inductive HeapTest where
  | lockTaken | uninitialized | searching | tagNull | complete | remainderPositive
  | childIndexValid | ptrNull | badMagic | leftFree | rightFree | full | sizeZero
  deriving DecidableEq

structure Locals where
  size : Nat := 0
  ptr : Nat := 0
  p : Nat := 0
  index : Int := 0
  tag : Nat := 0
  remainder : Nat := 0
  realSize : Nat := 0
  result : Nat := 0

/-- What the page hooks come back with: the bytes and the paging they leave, and
liballoc_alloc's pointer. -/
structure Outcome where
  mem : Memory
  vmm : Vmm
  ptr : Nat

abbrev HeapCmd := Cmd HeapFn HeapAct HeapTest

def ebusy : Nat := 1

/-- `xchg_32` is the exchange; `cpu_relax` does nothing. -/
def spinLock : HeapCmd :=
  .forever (.block [.exchange .ret .skip, .loop .lockTaken .skip])

def spinUnlock : HeapCmd := .release

def liballocLock : HeapCmd := .block [.call .spinLock, .ret]
def liballocUnlock : HeapCmd := .block [.call .spinUnlock, .ret]

def malloc : HeapCmd := .block [
  .call .liballocLock,
  .ite .uninitialized (.act .clearLists) .skip,
  .act .chooseIndex,
  .act .firstTag,
  .loop .searching (.act .nextTag),
  .ite .tagNull
    (.block [
      .act .allocateNewTag,
      .ite .tagNull (.block [.call .liballocUnlock, .act .returnNull, .ret]) .skip,
      .act .newIndex])
    (.block [.act .removeTag, .ite .complete (.act .uncountComplete) .skip]),
  .act .setSize,
  .act .chooseRemainder,
  .ite .remainderPositive (.ite .childIndexValid (.act .splitTag) .skip) .skip,
  .act .ptrOfTag,
  .call .liballocUnlock,
  .act .returnPtr,
  .ret]

def free : HeapCmd := .block [
  .ite .ptrNull .ret .skip,
  .call .liballocLock,
  .act .tagOfPtr,
  .ite .badMagic (.block [.call .liballocUnlock, .ret]) .skip,
  .loop .leftFree (.block [.act .meltLeft, .act .removeTag]),
  .loop .rightFree (.act .absorbRight),
  .act .realIndex,
  .ite .complete
    (.block [
      .ite .full (.block [.act .liballocFree, .call .liballocUnlock, .ret]) .skip,
      .act .countComplete])
    .skip,
  .act .insertTag,
  .call .liballocUnlock]

/-- The comparisons of liballoc_lock and liballoc_unlock with NULL always hold. -/
def realloc : HeapCmd := .block [
  .ite .sizeZero (.block [.call .free, .act .returnNull, .ret]) .skip,
  .ite .ptrNull (.block [.call .malloc, .ret]) .skip,
  .call .liballocLock,
  .act .tagOfPtr,
  .act .readSize,
  .call .liballocUnlock,
  .act .clampSize,
  .call .malloc,
  .act .takeResult,
  .act .liballocMemcpy,
  .call .free,
  .act .returnPtr,
  .ret]

def HeapFn.body : HeapFn → HeapCmd
  | .spinLock => RiseOS.spinLock
  | .spinUnlock => RiseOS.spinUnlock
  | .liballocLock => RiseOS.liballocLock
  | .liballocUnlock => RiseOS.liballocUnlock
  | .malloc => RiseOS.malloc
  | .free => RiseOS.free
  | .realloc => RiseOS.realloc

def HeapFn.entry : HeapFn → Bool
  | .malloc | .free | .realloc => true
  | _ => false

def Heap.clearLists (s : Heap) : Heap :=
  { s with
    freePages := fun i => if 0 ≤ i ∧ i < maxExp then 0 else s.freePages i
    completePages := fun i => if 0 ≤ i ∧ i < maxExp then 0 else s.completePages i
    initialized := 1 }

def newTagPages (size : Nat) : Nat := neededPages (wrap (sizeofTag + size))

def HeapAct.run (w : Outcome) (s : Heap) (l : Locals) : HeapAct → Heap × Locals
  | .clearLists => (s.clearLists, l)
  | .chooseIndex => (s, { l with index := bucket l.size })
  | .firstTag => (s, { l with tag := s.freePages l.index })
  | .nextTag => (s, { l with tag := s.get .next l.tag })
  | .allocateNewTag =>
      let s : Heap := { s with mem := w.mem, vmm := w.vmm }
      if w.ptr = 0 then (s, { l with tag := 0 })
      else (s.writeTag w.ptr l.size (wrap (newTagPages l.size * libPageSize)), { l with tag := w.ptr })
  | .newIndex => (s, { l with index := getexp (wsub (s.get .realSize l.tag) sizeofTag) })
  | .removeTag => (s.removeTag l.tag, l)
  | .uncountComplete => (s.setCompletePages l.index (s.completePages l.index - 1), l)
  | .setSize => (s.set .size l.tag l.size, l)
  | .chooseRemainder =>
      (s, { l with remainder := wsub (wsub (s.get .realSize l.tag) l.size) (sizeofTag * 2) })
  | .splitTag => (s.splitTag l.tag, l)
  | .ptrOfTag => (s, { l with ptr := wrap (sizeofTag + l.tag) })
  | .returnNull => (s, { l with result := 0 })
  | .returnPtr => (s, { l with result := l.ptr })
  | .tagOfPtr => (s, { l with tag := wsub l.p sizeofTag })
  | .meltLeft => ((s.meltLeft l.tag).1, { l with tag := (s.meltLeft l.tag).2 })
  | .absorbRight => (s.absorbRight l.tag, l)
  | .realIndex => (s, { l with index := bucket (wsub (s.get .realSize l.tag) sizeofTag) })
  | .liballocFree => ({ s with mem := w.mem, vmm := w.vmm }, l)
  | .countComplete => (s.setCompletePages l.index (s.completePages l.index + 1), l)
  | .insertTag => (s.insertTag l.tag l.index, l)
  | .readSize => (s, { l with realSize := s.get .size l.tag })
  | .clampSize => (s, { l with realSize := if l.realSize > l.size then l.size else l.realSize })
  | .takeResult => (s, { l with ptr := l.result })
  | .liballocMemcpy => ({ s with mem := (RiseOS.liballocMemcpy s.mem l.ptr l.p l.realSize).1 }, l)

/-- The tests; `searching` is the loop of malloc's search with its break. -/
def HeapTest.eval (s : Heap) (l : Locals) : HeapTest → Bool
  | .lockTaken => s.lock ≠ 0
  | .uninitialized => s.initialized = 0
  | .searching =>
      l.tag ≠ 0 ∧ ¬ wsub (s.get .realSize l.tag) sizeofTag ≥ wrap (sizeofTag + l.size)
  | .tagNull => l.tag = 0
  | .complete => s.complete l.tag
  | .remainderPositive => signed l.remainder > 0
  | .childIndexValid => getexp l.remainder ≥ 0
  | .ptrNull => l.p = 0
  | .badMagic => s.get .magic l.tag ≠ liballocMagic
  | .leftFree => s.get .splitLeft l.tag ≠ 0 ∧ s.index (s.get .splitLeft l.tag) ≥ 0
  | .rightFree => s.get .splitRight l.tag ≠ 0 ∧ s.index (s.get .splitRight l.tag) ≥ 0
  | .full => s.completePages l.index = maxComplete
  | .sizeZero => l.size = 0

/-- The locals that a function starts with. free names its argument ptr; here, as in
realloc, it is `p`. -/
def HeapFn.enter (l : Locals) : HeapFn → Locals
  | .malloc => { size := l.size }
  | .free => { p := l.p }
  | _ => {}

/-- The caller's locals after the call; malloc's result is the only one that is used. -/
def HeapFn.back (caller callee : Locals) : HeapFn → Locals
  | .malloc => { caller with result := callee.result }
  | _ => caller

end RiseOS
