import RiseOS.Kernel.Irq
import RiseOS.Kernel.Serial

/-! arch/i386/boot.S and kernel/isrc.c: the exception stubs, their gates, and what
fault_handler makes of an exception. -/
namespace RiseOS
open Words X86 Strings

/-- The stubs that push a word in the place of an error code. As in `irqStub`, neither
operand has a dollar sign. -/
def isrStub (vector : Nat) : List Instr := [.cli, .pushMem 0, .pushMem vector]

/-- The stubs marked "With Error Code!". -/
def isrErrorStub (vector : Nat) : List Instr := [.cli, .pushMem vector]

def isr0 : List Instr := isrStub 0
def isr1 : List Instr := isrStub 1
def isr2 : List Instr := isrStub 2
def isr3 : List Instr := isrStub 3
def isr4 : List Instr := isrStub 4
def isr5 : List Instr := isrStub 5
def isr6 : List Instr := isrStub 6
def isr7 : List Instr := isrStub 7
def isr8 : List Instr := isrErrorStub 8
def isr9 : List Instr := isrStub 9
def isr10 : List Instr := isrErrorStub 10
def isr11 : List Instr := isrErrorStub 11
def isr12 : List Instr := isrErrorStub 12
def isr13 : List Instr := isrErrorStub 13
def isr14 : List Instr := isrErrorStub 14
def isr15 : List Instr := isrStub 15
def isr16 : List Instr := isrStub 16
def isr17 : List Instr := isrStub 17
def isr18 : List Instr := isrStub 18
def isr19 : List Instr := isrStub 19
def isr20 : List Instr := isrStub 20
def isr21 : List Instr := isrStub 21
def isr22 : List Instr := isrStub 22
def isr23 : List Instr := isrStub 23
def isr24 : List Instr := isrStub 24
def isr25 : List Instr := isrStub 25
def isr26 : List Instr := isrStub 26
def isr27 : List Instr := isrStub 27
def isr28 : List Instr := isrStub 28
def isr29 : List Instr := isrStub 29
def isr30 : List Instr := isrStub 30
def isr31 : List Instr := isrStub 31

def isrGates : List (List Instr) :=
  [isr0, isr1, isr2, isr3, isr4, isr5, isr6, isr7, isr8, isr9, isr10, isr11, isr12, isr13, isr14, isr15,
   isr16, isr17, isr18, isr19, isr20, isr21, isr22, isr23, isr24, isr25, isr26, isr27, isr28, isr29, isr30,
   isr31]

/-- isr_common_stub, for a kernel that has fault_handler at this address. -/
def isrCommonStub (faultHandler : Nat) : List Instr :=
  [.pusha, .pushSeg .ds, .pushSeg .es, .pushSeg .fs, .pushSeg .gs,
   .movAx 0x10, .movAxSeg .ds, .movAxSeg .es, .movAxSeg .fs, .movAxSeg .gs, .movEspEax,
   .push .eax, .movEax faultHandler, .callEax, .pop .eax,
   .popSeg .gs, .popSeg .fs, .popSeg .es, .popSeg .ds, .popa, .addEsp 8, .iret]

structure GateLinks where
  faultHandler : Nat
  behindFaultCall : Nat
  irqHandler : Nat
  behindIrqCall : Nat

/-- The exceptions for which the processor pushes an error code. -/
def pushesErrorCode (vector : Nat) : Bool := vector ∈ [8, 10, 11, 12, 13, 14, 17]

/-- What the gate of a vector runs, and the address behind its call. -/
def gateCode (links : GateLinks) (vector : Fin 48) : List Instr × Nat :=
  let stub := (isrGates ++ irqGates).getD vector []
  if vector.val < 32 then (stub ++ isrCommonStub links.faultHandler, links.behindFaultCall)
  else (stub ++ irqCommonStub links.irqHandler, links.behindIrqCall)

/-- The processor where the C handler of a vector begins, and what its stub still has
to do when the handler returns. -/
def enterGate (links : GateLinks) (c : Cpu) (vector : Fin 48) (errorCode : Nat) : Cpu × List Instr :=
  (c.trap (if pushesErrorCode vector then some errorCode else none)).runToCall
    (gateCode links vector).2 (gateCode links vector).1

def exceptionMessages : List String :=
  ["Division By Zero", "Debug", "Non Maskable Interrupt", "Breakpoint", "Into Detected Overflow",
   "Out of Bounds", "Invalid Opcode", "No Coprocessor",
   "Double Fault", "Coprocessor Segment Overrun", "Bad TSS", "Segment Not Present", "Stack Fault",
   "General Protection Fault", "Page Fault", "Unknown Interrupt",
   "Coprocessor Fault", "Alignment Check", "Machine Check", "Reserved", "Reserved", "Reserved",
   "Reserved", "Reserved",
   "Reserved", "Reserved", "Reserved", "Reserved", "Reserved", "Reserved", "Reserved", "Reserved"]

def systemHalted : String := " Exception. System Halted!\n"

inductive Fault where
  | returned
  /-- `for (;;);`, after these characters -/
  | halted (printed : List (BitVec 8))

/-- The table exception_messages and the second text are where the linker has put them;
`args` is what qemu_printf would take for the arguments behind its format. -/
def faultHandler (fuel : Nat) (m : Memory) (table halted r : Nat) (args : Nat → Nat) : Option Fault :=
  if regsField m r .intNo < 32 then
    (qemuPrintf fuel m (load32 m (wrap (table + 4 * regsField m r .intNo))) args).bind fun name =>
      (qemuPrintf fuel m halted args).map fun rest => .halted (name ++ rest)
  else some .returned

end RiseOS
