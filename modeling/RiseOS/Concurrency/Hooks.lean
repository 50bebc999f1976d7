import RiseOS.Concurrency.Exclusion
import RiseOS.Heap.Paged
import RiseOS.Library.Uninterrupted

/-! The page hooks of rise.c behind the two statements that call them. They store into the
heap's own bytes. -/
namespace RiseOS
open Words Locks

section Rest

variable {s : Heap} {pages : Int}

/-- The hooks leave the lists and the lock. -/
theorem aliased_alloc_rest {r : Heap × Nat} (call : PageHooks.aliased.alloc s pages = some r) :
    { s with mem := r.1.mem, vmm := r.1.vmm } = r.1 := by
  obtain ⟨_, _, rfl⟩ := Option.map_eq_some_iff.mp call
  rfl

theorem aliased_free_rest {ptr : Nat} {r : Heap × Int}
    (call : PageHooks.aliased.free s ptr pages = some r) :
    { s with mem := r.1.mem, vmm := r.1.vmm } = r.1 := by
  obtain ⟨_, _, rfl⟩ := Option.map_eq_some_iff.mp call
  rfl

end Rest

/-- What the hooks come back with, if they come back. -/
def HeapAct.answer (s : Heap) (l : Locals) : HeapAct → Outcome
  | .allocateNewTag =>
      match PageHooks.aliased.alloc s (newTagPages l.size) with
      | some r => ⟨r.1.mem, r.1.vmm, r.2⟩
      | none => ⟨s.mem, s.vmm, 0⟩
  | .liballocFree =>
      match PageHooks.aliased.free s l.tag (neededPages (s.get .realSize l.tag)) with
      | some r => ⟨r.1.mem, r.1.vmm, 0⟩
      | none => ⟨s.mem, s.vmm, 0⟩
  | _ => ⟨s.mem, s.vmm, 0⟩

/-- The commands of the heap with the hooks put in. -/
def hookedProgram : Program HeapFn HeapAct HeapTest Heap Locals Unit where
  lock := heapLock
  body := HeapFn.body
  entry := HeapFn.entry
  act a _ s l := a.run (a.answer s l) s l
  test b s l := b.eval s l
  enter f l := f.enter l
  back f caller callee := f.back caller callee
  act_read a _ s l := act_lock (a.answer s l) s l a

abbrev HeapThread := Thread HeapFn HeapAct HeapTest Locals

/-- A statement that calls a hook goes on when the hook has come back, with its answer.
The pages that liballoc_alloc is asked for have their page tables, and liballoc_free clears
no set bit of the heap. -/
def Answered (bitmapAt : Nat) (w : Outcome) (s : Heap) (x : HeapThread) : Prop :=
  match x.code with
  | .cmd (.act .allocateNewTag) :: _ =>
      s.vmm.NeedsNoTable (newTagPages x.locals.size) ∧
        PageHooks.aliased.alloc s (newTagPages x.locals.size) =
          some ({ s with mem := w.mem, vmm := w.vmm }, w.ptr)
  | .cmd (.act .liballocFree) :: _ =>
      s.RegionSpares bitmapAt x.locals.tag (neededPages (s.get .realSize x.locals.tag)) ∧
        ∃ r, PageHooks.aliased.free s x.locals.tag (neededPages (s.get .realSize x.locals.tag)) =
          some ({ s with mem := w.mem, vmm := w.vmm }, r)
  | _ => True

theorem next_answered {bitmapAt : Nat} {w : Outcome} {s : Heap} {x : HeapThread}
    (answered : Answered bitmapAt w s x) :
    heapProgram.next w s x = hookedProgram.next () s x := by
  obtain ⟨code, locals, holds⟩ := x
  cases code with
  | nil => rfl
  | cons item k =>
    cases item with
    | leave f caller => rfl
    | cmd c =>
      cases c with
      | act a =>
        cases a with
        | allocateNewTag =>
          have asked : HeapAct.answer s locals .allocateNewTag = w := by
            simp only [HeapAct.answer, answered.2]
          simp only [Program.next, Program.exec, heapProgram, hookedProgram, asked]
        | liballocFree =>
          obtain ⟨_, r, answered⟩ := answered
          have asked : HeapAct.answer s locals .liballocFree = ⟨w.mem, w.vmm, 0⟩ := by
            simp only [HeapAct.answer, answered]
          simp only [Program.next, Program.exec, heapProgram, hookedProgram, HeapAct.run, asked]
        | _ => rfl
      | _ => rfl

/-- What is done with the hooks put in is something that the threads can do. -/
theorem ends_answered {c : HeapCmd} {x y : Local Heap Locals} {r : Bool}
    (ends : Ends hookedProgram c x y r) : Ends heapProgram c x y r := by
  induction ends with
  | skip => exact .skip
  | @act a d l h w => exact .act (a.answer d l)
  | exchangeFree zero rest ih => exact .exchangeFree zero ih
  | exchangeTaken busy rest ih => exact .exchangeTaken busy ih
  | release => exact .release
  | ret => exact .ret
  | seq front rest ihFront ihRest => exact .seq ihFront ihRest
  | seqReturns front ih => exact .seqReturns ih
  | yes holds branch ih => exact .yes holds ih
  | no fails branch ih => exact .no fails ih
  | loopDone fails => exact .loopDone fails
  | loopRound holds round rest ihRound ihRest => exact .loopRound holds ihRound ihRest
  | foreverReturns round ih => exact .foreverReturns ih
  | call body ih => exact .call ih

end RiseOS
