import RiseOS.Library.Memory

/-! The part of a 32-bit x86 in protected mode that interrupt stubs use: pushes
and pops on a stack in memory, the register moves, and the entry through an
interrupt gate without a change of privilege. -/
namespace X86
open Words

inductive Reg where
  | eax | ecx | edx | ebx | esp | ebp | esi | edi
  deriving DecidableEq

inductive Seg where
  | ds | es | fs | gs
  deriving DecidableEq

structure Cpu where
  reg : Reg → Nat
  seg : Seg → Nat
  eip : Nat
  cs : Nat
  eflags : Nat
  mem : Memory

/-- Instructions, named after their AT&T spelling; `pushMem` is a push whose
operand has no dollar sign, `callEax` an indirect call through %eax. -/
inductive Instr where
  | cli
  | pushMem (address : Nat)
  | push (r : Reg)
  | pop (r : Reg)
  | pushSeg (s : Seg)
  | popSeg (s : Seg)
  | pusha
  | popa
  | movAx (imm : Nat)
  | movAxSeg (s : Seg)
  | movEspEax
  | movEax (imm : Nat)
  | callEax
  | addEsp (imm : Nat)
  | iret

def Cpu.setReg (c : Cpu) (r : Reg) (v : Nat) : Cpu := { c with reg := Function.update c.reg r v }
def Cpu.setSeg (c : Cpu) (s : Seg) (v : Nat) : Cpu := { c with seg := Function.update c.seg s v }

def Cpu.pushWord (c : Cpu) (v : Nat) : Cpu :=
  { c with mem := store32 c.mem (wsub (c.reg .esp) 4) v }.setReg .esp (wsub (c.reg .esp) 4)

def Cpu.pushWords (c : Cpu) (vs : List Nat) : Cpu := vs.foldl Cpu.pushWord c

def Cpu.top (c : Cpu) : Nat := load32 c.mem (c.reg .esp)
def Cpu.drop (c : Cpu) : Cpu := c.setReg .esp (wrap (4 + c.reg .esp))

def Cpu.popReg (c : Cpu) (r : Reg) : Cpu := c.drop.setReg r c.top

/-- A selector is pushed as a word with zeros above it, where processors may also leave the
upper half of the cell as it is, and popped into sixteen bits. -/
def Cpu.exec (c : Cpu) : Instr → Cpu
  | .cli => { c with eflags := c.eflags &&& 0xFFFFFDFF }
  | .pushMem address => c.pushWord (load32 c.mem address)
  | .push r => c.pushWord (c.reg r)
  | .pop r => c.popReg r
  | .pushSeg s => c.pushWord (c.seg s)
  | .popSeg s => c.drop.setSeg s (c.top % 2 ^ 16)
  | .pusha => c.pushWords [c.reg .eax, c.reg .ecx, c.reg .edx, c.reg .ebx, c.reg .esp, c.reg .ebp,
      c.reg .esi, c.reg .edi]
  | .popa => ((((((c.popReg .edi).popReg .esi).popReg .ebp).drop.popReg .ebx).popReg .edx).popReg
      .ecx).popReg .eax
  | .movAx imm => c.setReg .eax (c.reg .eax / 2 ^ 16 * 2 ^ 16 + imm)
  | .movAxSeg s => c.setSeg s (c.reg .eax % 2 ^ 16)
  | .movEspEax => c.setReg .eax (c.reg .esp)
  | .movEax imm => c.setReg .eax imm
  | .callEax => c.pushWord c.eip
  | .addEsp imm => c.setReg .esp (wrap (imm + c.reg .esp))
  | .iret => { c.drop.drop.drop with
      eip := c.top, cs := c.drop.top % 2 ^ 16, eflags := c.drop.drop.top }

/-- Run up to and including the first call; the rest waits for its return.
`behind` is the address of the instruction behind the call. -/
def Cpu.runToCall (behind : Nat) : Cpu → List Instr → Cpu × List Instr
  | c, [] => (c, [])
  | c, .callEax :: rest => ({ c with eip := behind }.exec .callEax, rest)
  | c, i :: rest => (c.exec i).runToCall behind rest

/-- What the processor does before the first instruction of an interrupt gate. -/
def Cpu.interrupt (c : Cpu) : Cpu :=
  (c.pushWords [c.eflags, c.cs, c.eip]).exec .cli

/-- The same for an exception, which may push an error code on top. -/
def Cpu.trap (c : Cpu) (errorCode : Option Nat) : Cpu :=
  (c.pushWords ([c.eflags, c.cs, c.eip] ++ errorCode.toList)).exec .cli

def Cpu.run (c : Cpu) (is : List Instr) : Cpu := is.foldl Cpu.exec c

/-- The end of a function: the word on the stack is where its caller goes on. -/
def Cpu.ret (c : Cpu) : Cpu := { c.drop with eip := c.top }

/-- A processor whose registers hold words, and whose selectors have sixteen bits. -/
structure Processor extends Cpu where
  reg_lt : ∀ r, reg r < 2 ^ 32
  seg_lt : ∀ s, seg s < 2 ^ 16
  eip_lt : eip < 2 ^ 32
  cs_lt : cs < 2 ^ 16
  eflags_lt : eflags < 2 ^ 32

/-! ### Pushing -/

/-- `t` is `c` with words on its stack, up to eip and flags. -/
structure Pushed (c : Cpu) (vs : List Nat) (t : Cpu) : Prop where
  mem : t.mem = pushAll c.mem (c.reg .esp) vs
  esp : t.reg .esp = wsub (c.reg .esp) (4 * vs.length)
  regs : ∀ r, r ≠ .esp → t.reg r = c.reg r
  segs : t.seg = c.seg

theorem Pushed.refl {c : Cpu} (word : c.reg .esp < 2 ^ 32) : Pushed c [] c := by
  refine ⟨rfl, ?_, fun _ _ => rfl, rfl⟩
  rw [List.length_nil, Nat.mul_zero, wsub_eq word (Nat.zero_le _), Nat.sub_zero]

theorem Pushed.push {c t : Cpu} {vs : List Nat} (h : Pushed c vs t) (v : Nat)
    (room : 4 * vs.length + 4 ≤ 2 ^ 32) : Pushed c (vs ++ [v]) (t.pushWord v) := by
  have lower : wsub (t.reg .esp) 4 = wsub (c.reg .esp) (4 * vs.length + 4) := by
    rw [h.esp]
    simp only [wsub, wrap]
    omega
  refine ⟨?_, ?_, ?_, h.segs⟩
  · rw [pushAll_snoc vs c.mem _ v room, ← h.mem, ← lower]
    rfl
  · rw [List.length_append, List.length_singleton, Nat.mul_add, Nat.mul_one, ← lower]
    exact Function.update_self Reg.esp _ t.reg
  · intro r other
    rw [← h.regs r other]
    exact Function.update_of_ne other _ t.reg

theorem Pushed.pushWords {c t : Cpu} {vs : List Nat} (h : Pushed c vs t) (ws : List Nat)
    (room : 4 * (vs.length + ws.length) ≤ 2 ^ 32) : Pushed c (vs ++ ws) (t.pushWords ws) := by
  induction ws generalizing t vs with
  | nil =>
    rw [List.append_nil]
    exact h
  | cons v rest ih =>
    rw [List.length_cons] at room
    have longer : vs ++ v :: rest = (vs ++ [v]) ++ rest := by simp
    rw [longer]
    refine ih (h.push v (by omega)) ?_
    rw [List.length_append, List.length_singleton]
    omega

theorem Pushed.cli {c t : Cpu} {vs : List Nat} (h : Pushed c vs t) : Pushed c vs (t.exec .cli) :=
  ⟨h.mem, h.esp, h.regs, h.segs⟩

theorem trap_pushed {c : Cpu} (word : c.reg .esp < 2 ^ 32) (errorCode : Option Nat) :
    Pushed c ([c.eflags, c.cs, c.eip] ++ errorCode.toList) (c.trap errorCode) := by
  have start := (Pushed.refl word).pushWords ([c.eflags, c.cs, c.eip] ++ errorCode.toList) (by
    cases errorCode <;> simp)
  exact start.cli

end X86
