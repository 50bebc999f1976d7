import Mathlib.Tactic.IntervalCases
import RiseOS.Kernel.Irq

/-! From the interrupt gate to the handler: the frame that a stub builds, and
what irq_handler makes of it. -/
namespace RiseOS
open Words X86

theorem irqGates_eq (n : Fin 16) : irqGates.getD n [] = irqStub (32 + n) := by
  obtain ⟨n, inside⟩ := n
  interval_cases n <;> rfl

/-- The words on the stack when irq_handler begins, first pushed first. -/
def frameWords (links : IrqLinks) (c : Cpu) (errCode intNo : Nat) : List Nat :=
  [c.eflags, c.cs, c.eip, errCode, intNo, c.reg .eax, c.reg .ecx, c.reg .edx, c.reg .ebx,
   wsub (c.reg .esp) 20, c.reg .ebp, c.reg .esi, c.reg .edi, c.seg .ds, c.seg .es, c.seg .fs,
   c.seg .gs, wsub (c.reg .esp) 68, links.behindCall]

/-- The words at 0 and at the vector's own address, as the stub finds them. -/
def pushedError (c : Cpu) : Nat := load32 (pushAll c.mem (c.reg .esp) [c.eflags, c.cs, c.eip]) 0
def pushedNumber (c : Cpu) (n : Fin 16) (errCode : Nat) : Nat :=
  load32 (pushAll c.mem (c.reg .esp) [c.eflags, c.cs, c.eip, errCode]) (32 + n)

theorem enterIrq_mem (links : IrqLinks) (c : Cpu) (n : Fin 16) :
    (enterIrq links c n).mem = pushAll c.mem (c.reg .esp)
      (frameWords links c (pushedError c) (pushedNumber c n (pushedError c))) ∧
    (enterIrq links c n).reg .esp = wsub (c.reg .esp) 76 := by
  unfold enterIrq
  rw [irqGates_eq]
  constructor
  · simp [irqStub, irqCommonStub, Cpu.runToCall, Cpu.exec, Cpu.interrupt, Cpu.pushWords, Cpu.setReg,
      Cpu.setSeg, Cpu.pushWord, pushAll, frameWords, pushedError, pushedNumber, wsub_wsub]
  · simp [irqStub, irqCommonStub, Cpu.runToCall, Cpu.exec, Cpu.interrupt, Cpu.pushWords, Cpu.setReg,
      Cpu.setSeg, Cpu.pushWord, wsub_wsub]

theorem enterIrq_argument (links : IrqLinks) (c : Cpu) (n : Fin 16) :
    irqArgument (enterIrq links c n) = wsub (c.reg .esp) 68 := by
  obtain ⟨mem, esp⟩ := enterIrq_mem links c n
  have here : wrap (4 + wsub (c.reg .esp) 76) = wsub (c.reg .esp) 72 := by
    simp only [wsub, wrap]
    omega
  rw [irqArgument, esp, mem, here]
  exact load32_pushed _ c.mem (c.reg .esp) 17 _ rfl (wrap_lt _) (by simp [frameWords])

theorem enterIrq_fields (links : IrqLinks) (c : Cpu) (n : Fin 16) :
    regsField (enterIrq links c n).mem (wsub (c.reg .esp) 68) .intNo =
      pushedNumber c n (pushedError c) ∧
    regsField (enterIrq links c n).mem (wsub (c.reg .esp) 68) .errCode = pushedError c := by
  have number : wrap (4 * RegsField.intNo.index + wsub (c.reg .esp) 68) = wsub (c.reg .esp) 20 := by
    simp only [wsub, wrap, RegsField.index]
    omega
  have error : wrap (4 * RegsField.errCode.index + wsub (c.reg .esp) 68) = wsub (c.reg .esp) 16 := by
    simp only [wsub, wrap, RegsField.index]
    omega
  rw [regsField, regsField, number, error, (enterIrq_mem links c n).1]
  constructor
  · exact load32_pushed _ c.mem (c.reg .esp) 4 _ rfl (load32_lt _ _) (by simp [frameWords])
  · exact load32_pushed _ c.mem (c.reg .esp) 3 _ rfl (load32_lt _ _) (by simp [frameWords])

inductive IrqOp where
  | install (irq : Fin 16) (handler : Nat)
  | uninstall (irq : Fin 16)

def IrqOp.apply (routines : IrqRoutines) : IrqOp → IrqRoutines
  | .install irq handler => irqInstallHandler routines irq handler
  | .uninstall irq => irqUninstallHandler routines irq

def IrqOp.handlerOf (n : Fin 16) (handler : Option Nat) : IrqOp → Option Nat
  | .install irq address =>
      if irq = n then (if address = 0 then none else some address) else handler
  | .uninstall irq => if irq = n then none else handler

/-- The handler most recently installed for `n`, unless it was taken back since. -/
def installed (ops : List IrqOp) (n : Fin 16) : Option Nat :=
  ops.foldl (IrqOp.handlerOf n) none

def tableAfter (behind : IrqRoutines) (ops : List IrqOp) : IrqRoutines :=
  ops.foldl IrqOp.apply (irqRoutines behind)

theorem apply_handlerOf (n : Fin 16) (op : IrqOp) (routines : IrqRoutines) (handler : Option Nat)
    (same : routines n = handler.getD 0 ∧ handler ≠ some 0) :
    op.apply routines n = (op.handlerOf n handler).getD 0 ∧ op.handlerOf n handler ≠ some 0 := by
  have apart : ∀ irq : Fin 16, irq ≠ n → (n : Nat) ≠ irq := fun irq other h => other (Fin.ext h.symm)
  cases op with
  | install irq address =>
    by_cases here : irq = n
    · by_cases null : address = 0
      · simp [IrqOp.apply, IrqOp.handlerOf, irqInstallHandler, here, null]
      · simp [IrqOp.apply, IrqOp.handlerOf, irqInstallHandler, here, null]
    · simp [IrqOp.apply, IrqOp.handlerOf, irqInstallHandler, here, apart irq here, same]
  | uninstall irq =>
    by_cases here : irq = n
    · simp [IrqOp.apply, IrqOp.handlerOf, irqUninstallHandler, here]
    · simp [IrqOp.apply, IrqOp.handlerOf, irqUninstallHandler, here, apart irq here, same]

/-- After any run the table holds for `n` the handler installed last. -/
theorem tableAfter_installed (behind : IrqRoutines) (ops : List IrqOp) (n : Fin 16) :
    tableAfter behind ops n = (installed ops n).getD 0 ∧ installed ops n ≠ some 0 := by
  suffices step : ∀ (routines : IrqRoutines) (handler : Option Nat),
      routines n = handler.getD 0 ∧ handler ≠ some 0 →
      ops.foldl IrqOp.apply routines n = (ops.foldl (IrqOp.handlerOf n) handler).getD 0 ∧
        ops.foldl (IrqOp.handlerOf n) handler ≠ some 0 from
    step _ none ⟨if_pos n.isLt, by simp⟩
  induction ops with
  | nil => exact fun _ _ same => same
  | cons op rest ih => exact fun routines handler same => ih _ _ (apply_handlerOf n op routines handler same)

/-- IRQ `n` reaches its handler with the right frame and is acknowledged. -/
def Dispatches (links : IrqLinks) (handlers : Handlers) (behind : IrqRoutines) (ops : List IrqOp)
    (c : Cpu) (n : Fin 16) : Prop :=
  let entry := enterIrq links c n
  let r := irqArgument entry
  regsField entry.mem r .intNo = 32 + n ∧ regsField entry.mem r .errCode = 0 ∧
    (fireIrq links handlers (tableAfter behind ops) c n).trace =
      (installed ops n).toList.map (fun address => IrqEvent.handler address r) ++
        (if 8 ≤ n.val then [.outportb 0xA0 0x20] else []) ++ [.outportb 0x20 0x20]

def LowMemoryAgrees (c : Cpu) (n : Fin 16) : Prop :=
  pushedError c = 0 ∧ pushedNumber c n 0 = 32 + n

/-- The installed handler, given the frame that struct regs describes, does not
carry int_no over the slave's boundary. -/
def HandlerKeepsSide (links : IrqLinks) (handlers : Handlers) (ops : List IrqOp) (c : Cpu)
    (n : Fin 16) : Prop :=
  ∀ address, installed ops n = some address →
    (40 ≤ regsField (handlers address (pushAll c.mem (c.reg .esp) (frameWords links c 0 (32 + n)))
      (wsub (c.reg .esp) 68)) (wsub (c.reg .esp) 68) .intNo ↔ 8 ≤ n.val)

theorem eoi_iff (called : List IrqEvent) (p q : Prop) [Decidable p] [Decidable q] :
    called ++ (if p then [IrqEvent.outportb 0xA0 0x20] else []) ++ [.outportb 0x20 0x20] =
      called ++ (if q then [IrqEvent.outportb 0xA0 0x20] else []) ++ [.outportb 0x20 0x20] ↔
        (p ↔ q) := by
  by_cases hp : p
  · by_cases hq : q <;> simp [hp, hq]
  · by_cases hq : q <;> simp [hp, hq]

theorem irqHandler_trace (handlers : Handlers) (behind : IrqRoutines) (ops : List IrqOp)
    (n : Fin 16) (m : Memory) (r : Nat) (number : regsField m r .intNo = 32 + n) :
    (irqHandler handlers (tableAfter behind ops) m r).trace =
        (installed ops n).toList.map (fun address => IrqEvent.handler address r) ++
          (if 8 ≤ n.val then [.outportb 0xA0 0x20] else []) ++ [.outportb 0x20 0x20] ↔
      ∀ address, installed ops n = some address →
        (40 ≤ regsField (handlers address m r) r .intNo ↔ 8 ≤ n.val) := by
  have index : wsub (32 + n) 32 % 2 ^ 30 = n := by
    simp only [wsub, wrap]
    omega
  obtain ⟨entry, nonzero⟩ := tableAfter_installed behind ops n
  cases h : installed ops n with
  | none =>
    rw [h, Option.getD_none] at entry
    have boundary : 32 + n.val ≥ 40 ↔ 8 ≤ n.val := by omega
    simp only [irqHandler, number, index, entry, ne_eq, not_true_eq_false, if_false,
      Option.toList_none, List.map_nil, reduceCtorEq, false_imp_iff, implies_true, iff_true]
    exact (eoi_iff [] _ _).mpr boundary
  | some address =>
    rw [h, Option.getD_some] at entry
    have null : address ≠ 0 := fun zero => nonzero (h.trans (congrArg some zero))
    simp only [irqHandler, number, index, entry, null, ne_eq, not_false_eq_true, if_true,
      Option.toList_some, List.map_cons, List.map_nil, Option.some.injEq, forall_eq']
    exact eoi_iff _ _ _

/-- The stubs push words of low memory, so an IRQ is dispatched as meant exactly
when those words happen to be the numbers, and the handler leaves int_no on its
side of the boundary. -/
theorem dispatches_iff (links : IrqLinks) (handlers : Handlers) (behind : IrqRoutines)
    (ops : List IrqOp) (c : Cpu) (n : Fin 16) :
    Dispatches links handlers behind ops c n ↔
      LowMemoryAgrees c n ∧ HandlerKeepsSide links handlers ops c n := by
  obtain ⟨intNo, errCode⟩ := enterIrq_fields links c n
  have mem := (enterIrq_mem links c n).1
  unfold Dispatches fireIrq
  dsimp only
  rw [enterIrq_argument, intNo, errCode]
  constructor
  · rintro ⟨number, zero, trace⟩
    rw [zero] at number
    refine ⟨⟨zero, number⟩, ?_⟩
    rw [zero, number] at mem
    rw [zero, number] at intNo
    rw [irqHandler_trace handlers behind ops n _ _ intNo, mem] at trace
    exact trace
  · rintro ⟨⟨zero, number⟩, keeps⟩
    rw [zero, number] at mem intNo
    rw [zero]
    refine ⟨number, rfl, ?_⟩
    rw [irqHandler_trace handlers behind ops n _ _ intNo, mem]
    exact keeps

def zeroCpu : Cpu where
  reg := fun r => if r = .esp then 0x8000 else 0
  seg := fun _ => 0x10
  eip := 0x100000
  cs := 8
  eflags := 0x202
  mem := fun _ => 0

/-- With zeros in low memory the timer's handler is never found: int_no is 0. -/
theorem zero_memory_not_dispatched : ¬ Dispatches ⟨0x101000, 0x102000⟩ (fun _ m _ => m)
    (fun _ => 0) [.install 0 0x103000] zeroCpu 0 := by
  intro dispatched
  have number := dispatched.1
  rw [enterIrq_argument, (enterIrq_fields _ _ _).1] at number
  revert number
  decide +kernel

end RiseOS
