import Mathlib.Data.Nat.Bitwise

/-! The 16550 serial controller as its driver sees it: the registers, and the queues of
the transmitter and the receiver. Line errors, modem signals and loopback are left out. -/

structure Uart where
  divisorLow : Nat
  divisorHigh : Nat
  ier : Nat
  lcr : Nat
  mcr : Nat
  queues : Bool
  sending : List (BitVec 8)
  shifting : Option (BitVec 8)
  received : List (BitVec 8)
  overrun : Bool
  deriving DecidableEq

namespace Uart

/-- Ports 0 and 1 are the divisor. -/
def latch (u : Uart) : Bool := u.lcr.testBit 7

def depth (u : Uart) : Nat := if u.queues then 16 else 1

/-- A full queue drops what comes, a lone holding register is overwritten. -/
def accept (u : Uart) (b : BitVec 8) : Uart :=
  if u.sending.length < u.depth then { u with sending := u.sending ++ [b] }
  else if u.queues then u
  else { u with sending := [b] }

/-- A change of mode empties both queues, and the other bits count only with bit 0. -/
def control (u : Uart) (data : Nat) : Uart :=
  { u with
    queues := data.testBit 0
    received := if data.testBit 0 ≠ u.queues ∨ data.testBit 0 ∧ data.testBit 1 then [] else u.received
    sending := if data.testBit 0 ≠ u.queues ∨ data.testBit 0 ∧ data.testBit 2 then [] else u.sending }

def write (u : Uart) (register data : Nat) : Uart :=
  match register with
  | 0 => if u.latch then { u with divisorLow := data } else u.accept (BitVec.ofNat 8 data)
  | 1 => if u.latch then { u with divisorHigh := data } else { u with ier := data }
  | 2 => u.control data
  | 3 => { u with lcr := data }
  | 4 => { u with mcr := data }
  | _ => u

def status (u : Uart) : Nat :=
  (if u.received = [] then 0 else 1) + (if u.overrun then 2 else 0) +
    (if u.sending = [] then 0x20 else 0) + if u.sending = [] ∧ u.shifting = none then 0x40 else 0

/-- Without a byte received the data register reads as 0. -/
def read (u : Uart) (register : Nat) : Uart × Nat :=
  match register with
  | 0 =>
      if u.latch then (u, u.divisorLow)
      else match u.received with
        | [] => (u, 0)
        | b :: rest => ({ u with received := rest }, b.toNat)
  | 1 => (u, if u.latch then u.divisorHigh else u.ier)
  | 3 => (u, u.lcr)
  | 4 => (u, u.mcr)
  | 5 => ({ u with overrun := false }, u.status)
  | _ => (u, 0)

/-! ### What the controller does by itself -/

/-- The shift register, when it is free, takes the next byte. -/
def load (u : Uart) : Uart :=
  match u.shifting, u.sending with
  | none, b :: rest => { u with shifting := some b, sending := rest }
  | _, _ => u

/-- The byte in the shift register is on the line. -/
def emit (u : Uart) : Uart × List (BitVec 8) := ({ u with shifting := none }, u.shifting.toList)

/-- A byte comes in; with no place left it is lost. -/
def arrive (u : Uart) (b : BitVec 8) : Uart :=
  if u.received.length < u.depth then { u with received := u.received ++ [b] }
  else { u with overrun := true }

/-- Everything the transmitter still has, in the order in which it will send it. -/
def unsent (u : Uart) : List (BitVec 8) := u.shifting.toList ++ u.sending

theorem load_unsent (u : Uart) : u.load.unsent = u.unsent := by
  unfold load unsent
  split
  · rename_i free next
    simp [free, next]
  · rfl

theorem emit_unsent (u : Uart) : u.emit.2 ++ u.emit.1.unsent = u.unsent := rfl

theorem load_shorter (u : Uart) : u.load.sending.length ≤ u.sending.length := by
  unfold load
  split
  · rename_i next
    simp [next]
  · exact le_refl _

theorem accept_room {u : Uart} (room : u.sending.length < u.depth) (b : BitVec 8) :
    u.accept b = { u with sending := u.sending ++ [b] } := if_pos room

/-! ### Bits of the status -/

theorem status_ready (u : Uart) : u.status &&& 0x20 = if u.sending = [] then 0x20 else 0 := by
  unfold status
  by_cases a : u.received = [] <;> by_cases b : u.overrun = true <;>
    by_cases c : u.sending = [] <;> by_cases d : u.shifting = none <;> simp [a, b, c, d]

theorem status_received (u : Uart) : u.status &&& 1 = if u.received = [] then 0 else 1 := by
  unfold status
  by_cases a : u.received = [] <;> by_cases b : u.overrun = true <;>
    by_cases c : u.sending = [] <;> by_cases d : u.shifting = none <;> simp [a, b, c, d]

/-! ### At its ports -/

def outportb (u : Uart) (base port data : Nat) : Uart :=
  if base ≤ port ∧ port < base + 8 then u.write (port - base) data else u

def inportb (u : Uart) (base port : Nat) : Uart × Nat :=
  if base ≤ port ∧ port < base + 8 then u.read (port - base) else (u, 0xFF)

def outports (u : Uart) (base : Nat) (writes : List (Nat × Nat)) : Uart :=
  writes.foldl (fun u w => u.outportb base w.1 w.2) u

end Uart
