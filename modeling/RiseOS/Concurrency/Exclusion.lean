import RiseOS.Heap.Tags
import RiseOS.Kernel.Threads

/-! The critical sections of the heap exclude each other, for any number of threads. -/
namespace RiseOS
open Words Locks Runs

theorem act_lock (w : Outcome) (s : Heap) (l : Locals) (a : HeapAct) :
    (a.run w s l).1.lock = s.lock := by
  cases a
  case allocateNewTag =>
    by_cases refused : w.ptr = 0
    · simp [HeapAct.run, refused]
    · simp [HeapAct.run, refused, Heap.writeTag, Heap.set]
  case removeTag => exact (removeTag_globals s l.tag).2.1
  case meltLeft => exact (meltLeft_rest s l.tag).1.2.1
  case absorbRight => exact (absorbRight_rest s l.tag).1.2.1
  case insertTag => exact (insertTag_rest s l.tag l.index).1.2.1
  case splitTag =>
    have cut := (cutTag_rest s l.tag).1.2.1
    exact ((insertTag_rest (s.cutTag l.tag) (s.newTag l.tag) (-1)).1.2.1).trans cut
  all_goals rfl

def heapLock : Lock Heap where
  read := Heap.lock
  write s v := { s with lock := v }
  busy := ebusy
  read_write _ _ := rfl
  busy_ne := Nat.one_ne_zero

def heapProgram : Program HeapFn HeapAct HeapTest Heap Locals Outcome where
  lock := heapLock
  body := HeapFn.body
  entry := HeapFn.entry
  act a w s l := a.run w s l
  test b s l := b.eval s l
  enter f l := f.enter l
  back f caller callee := f.back caller callee
  act_read a w s l := act_lock w s l a

/-- Who holds the lock around each function. -/
def HeapFn.contract : HeapFn → Contract
  | .spinLock | .liballocLock => ⟨false, true⟩
  | .spinUnlock | .liballocUnlock => ⟨true, false⟩
  | .malloc | .free | .realloc => ⟨false, false⟩

theorem heap_meets (f : HeapFn) : heapProgram.meets HeapFn.contract f = true := by
  cases f <;> decide

abbrev HeapMachine (Tid : Type) := Machine Tid HeapFn HeapAct HeapTest Heap Locals

/-- No thread runs yet, over a heap in any state with the lock free. -/
def idleMachine (Tid : Type) (s : Heap) (l : Tid → Locals) : HeapMachine Tid where
  data := { s with lock := 0 }
  thread t := { code := [], locals := l t, holds := false }

/-- Whatever threads call malloc, free and realloc, however their steps interleave and
whatever the page hooks answer, the sections between spin_lock's exchange and
spin_unlock's store exclude each other in every state reached. -/
theorem heap_sections_exclude (Tid : Type) [DecidableEq Tid] (s : Heap) (l : Tid → Locals)
    (schedule : List (Tid × Move HeapFn Locals Outcome)) :
    Always heapProgram.step (Excludes heapProgram HeapFn.contract) (idleMachine Tid s l) schedule :=
  always_excludes heap_meets rfl (fun _ => ⟨rfl, rfl⟩) schedule

end RiseOS
