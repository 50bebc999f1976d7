import RiseOS.Library.Uart

/-! kernel/serial.c: the first serial port, polled. A call to read_serial or
write_serial is as many port accesses as its loop makes and one more; `ready` says that
the loop is over. -/
namespace RiseOS

def PORT : Nat := 0x3F8

/-- The ports and bytes that are written. -/
def serialInit : List (Nat × Nat) :=
  [(PORT + 1, 0x00), (PORT + 3, 0x80), (PORT + 0, 0x03), (PORT + 1, 0x00), (PORT + 3, 0x03),
   (PORT + 2, 0xC7), (PORT + 4, 0x0B)]

def serialReceived (u : Uart) : Uart × Nat :=
  let (u, status) := u.inportb PORT (PORT + 5)
  (u, status &&& 1)

def isTransmitEmpty (u : Uart) : Uart × Nat :=
  let (u, status) := u.inportb PORT (PORT + 5)
  (u, status &&& 0x20)

/-- The next access of read_serial, with the byte when it returns. -/
def readSerial (u : Uart) (ready : Bool) : Uart × Bool × Option (BitVec 8) :=
  if ready then
    let (u, data) := u.inportb PORT PORT
    (u, false, some (BitVec.ofNat 8 data))
  else
    let (u, received) := serialReceived u
    (u, decide (received ≠ 0), none)

/-- The next access of write_serial; it is through when `ready` was true. -/
def writeSerial (u : Uart) (ready : Bool) (a : BitVec 8) : Uart × Bool :=
  if ready then (u.outportb PORT PORT a.toNat, false)
  else
    let (u, empty) := isTransmitEmpty u
    (u, decide (empty ≠ 0))

/-- A context that prints: what write_serial has still to be given, and `ready` for the
first of it. -/
structure Printer where
  rest : List (BitVec 8)
  ready : Bool
  deriving DecidableEq

/-- The next access of a context, with the byte that write_serial is through with. -/
def Printer.access (p : Printer) (u : Uart) : Uart × Printer × Option (BitVec 8) :=
  match p.rest with
  | [] => (u, p, none)
  | a :: rest =>
      let (u, ready) := writeSerial u p.ready a
      if p.ready then (u, ⟨rest, ready⟩, some a) else (u, ⟨a :: rest, ready⟩, none)

end RiseOS
