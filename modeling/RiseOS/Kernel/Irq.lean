import Mathlib.Data.Fin.Basic
import RiseOS.Library.X86

/-! arch/i386/boot.S and kernel/irq.c: the interrupt stubs, struct regs and
irq_handler. Handlers are machine code outside the kernel: a function of their
address, the memory and the pointer they are given. -/
namespace RiseOS
open Words X86

/-- The fields of struct regs in order; all of them are words. -/
inductive RegsField where
  | gs | fs | es | ds | edi | esi | ebp | esp | ebx | edx | ecx | eax | intNo | errCode
  | eip | cs | eflags | useresp | ss

def RegsField.index : RegsField → Nat
  | .gs => 0 | .fs => 1 | .es => 2 | .ds => 3 | .edi => 4 | .esi => 5 | .ebp => 6 | .esp => 7
  | .ebx => 8 | .edx => 9 | .ecx => 10 | .eax => 11 | .intNo => 12 | .errCode => 13 | .eip => 14
  | .cs => 15 | .eflags => 16 | .useresp => 17 | .ss => 18

def regsField (m : Memory) (r : Nat) (field : RegsField) : Nat := load32 m (wrap (4 * field.index + r))

/-- The stubs irq<n>: `push 0` and `push <vector>`, both without a dollar sign,
push the words at these addresses. -/
def irqStub (vector : Nat) : List Instr := [.cli, .pushMem 0, .pushMem vector]

def irq0 : List Instr := irqStub 32
def irq1 : List Instr := irqStub 33
def irq2 : List Instr := irqStub 34
def irq3 : List Instr := irqStub 35
def irq4 : List Instr := irqStub 36
def irq5 : List Instr := irqStub 37
def irq6 : List Instr := irqStub 38
def irq7 : List Instr := irqStub 39
def irq8 : List Instr := irqStub 40
def irq9 : List Instr := irqStub 41
def irq10 : List Instr := irqStub 42
def irq11 : List Instr := irqStub 43
def irq12 : List Instr := irqStub 44
def irq13 : List Instr := irqStub 45
def irq14 : List Instr := irqStub 46
def irq15 : List Instr := irqStub 47

def irqGates : List (List Instr) :=
  [irq0, irq1, irq2, irq3, irq4, irq5, irq6, irq7, irq8, irq9, irq10, irq11, irq12, irq13, irq14, irq15]

/-- irq_common_stub, for a kernel that has irq_handler at this address. -/
def irqCommonStub (irqHandler : Nat) : List Instr :=
  [.pusha, .pushSeg .ds, .pushSeg .es, .pushSeg .fs, .pushSeg .gs,
   .movAx 0x10, .movAxSeg .ds, .movAxSeg .es, .movAxSeg .fs, .movAxSeg .gs, .movEspEax,
   .push .eax, .movEax irqHandler, .callEax, .pop .eax,
   .popSeg .gs, .popSeg .fs, .popSeg .es, .popSeg .ds, .popa, .addEsp 8, .iret]

/-- The words from `irq_routines` on, by index; the array has sixteen. -/
abbrev IrqRoutines := Nat → Nat

/-- The initial array, with whatever follows it in memory. -/
def irqRoutines (behind : IrqRoutines) : IrqRoutines := fun i => if i < 16 then 0 else behind i

def irqInstallHandler (routines : IrqRoutines) (irq : Nat) (handler : Nat) : IrqRoutines :=
  Function.update routines irq handler

def irqUninstallHandler (routines : IrqRoutines) (irq : Nat) : IrqRoutines :=
  Function.update routines irq 0

inductive IrqEvent where
  | handler (address r : Nat)
  | outportb (port data : Nat)
  deriving DecidableEq

def IrqEvent.write : IrqEvent → Option (Nat × Nat)
  | .handler _ _ => none
  | .outportb port data => some (port, data)

/-- The port writes among the events. -/
def portWrites (trace : List IrqEvent) : List (Nat × Nat) := trace.filterMap IrqEvent.write

def irqRemap : List IrqEvent :=
  [.outportb 0x20 0x11, .outportb 0xA0 0x11, .outportb 0x21 0x20, .outportb 0xA1 0x28,
   .outportb 0x21 0x04, .outportb 0xA1 0x02, .outportb 0x21 0x01, .outportb 0xA1 0x01,
   .outportb 0x21 0x0, .outportb 0xA1 0x0]

/-- What irq_handler does: its message's argument, its calls and port writes in
order, and the memory it leaves. -/
structure IrqRun where
  fired : Nat
  trace : List IrqEvent
  mem : Memory

abbrev Handlers := (address : Nat) → Memory → (r : Nat) → Memory

/-- `int_no - 32` is an unsigned index, and a word has four bytes. -/
def irqHandler (handlers : Handlers) (routines : IrqRoutines) (m : Memory) (r : Nat) : IrqRun :=
  let handler := routines (wsub (regsField m r .intNo) 32 % 2 ^ 30)
  let m' := if handler ≠ 0 then handlers handler m r else m
  let called := if handler ≠ 0 then [IrqEvent.handler handler r] else []
  let slave := if regsField m' r .intNo ≥ 40 then [IrqEvent.outportb 0xA0 0x20] else []
  ⟨regsField m r .intNo, called ++ slave ++ [.outportb 0x20 0x20], m'⟩

structure IrqLinks where
  irqHandler : Nat
  behindCall : Nat

/-- The processor where irq_handler begins, after IRQ `n` has fired. -/
def enterIrq (links : IrqLinks) (c : Cpu) (n : Fin 16) : Cpu :=
  (c.interrupt.runToCall links.behindCall
    (irqGates.getD n [] ++ irqCommonStub links.irqHandler)).1

/-- The argument of irq_handler, above the return address. -/
def irqArgument (c : Cpu) : Nat := load32 c.mem (wrap (4 + c.reg .esp))

def fireIrq (links : IrqLinks) (handlers : Handlers) (routines : IrqRoutines) (c : Cpu) (n : Fin 16) :
    IrqRun :=
  irqHandler handlers routines (enterIrq links c n).mem (irqArgument (enterIrq links c n))

end RiseOS
