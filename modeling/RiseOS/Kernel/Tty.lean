import RiseOS.Library.Words

/-! kernel/arch/i386/tty.c: the text console, with putchar of libc/stdio above it.
`size_t` is a 32-bit word. `stores` collects the indices of all stores into
`terminal_buffer`. -/
namespace RiseOS
open Words

def vgaWidth : Nat := 80
def vgaHeight : Nat := 25
def vgaColorBlack : BitVec 8 := 0
def vgaColorLightGrey : BitVec 8 := 7

def vgaEntryColor (fg bg : BitVec 8) : BitVec 8 := fg ||| bg <<< 4
def vgaEntry (uc color : BitVec 8) : BitVec 16 := uc.setWidth 16 ||| color.setWidth 16 <<< 8

structure Tty where
  row : Nat
  column : Nat
  color : BitVec 8
  buffer : Nat → BitVec 16
  stores : List Nat

def Tty.terminalSetcolor (s : Tty) (color : BitVec 8) : Tty := { s with color := color }

def Tty.terminalPutentryat (s : Tty) (c color : BitVec 8) (x y : Nat) : Tty :=
  let index := wrap (y * vgaWidth + x)
  { s with buffer := Function.update s.buffer index (vgaEntry c color), stores := index :: s.stores }

/-- What stood in the buffer before does not matter; the stores are counted from here. -/
def Tty.terminalInitialize (s : Tty) : Tty :=
  let s := { s with row := 0, column := 0, color := vgaEntryColor vgaColorLightGrey vgaColorBlack, stores := [] }
  (List.range vgaHeight).foldl (fun s y =>
    (List.range vgaWidth).foldl (fun s x => s.terminalPutentryat 32 s.color x y) s) s

def Tty.terminalPutchar (s : Tty) (c : BitVec 8) : Tty :=
  let s := s.terminalPutentryat c s.color s.column s.row
  let column := wrap (s.column + 1)
  if column = vgaWidth then
    let row := wrap (s.row + 1)
    { s with column := 0, row := if row = vgaHeight then 0 else row }
  else { s with column := column }

def Tty.terminalNewline (s : Tty) : Tty := { s with column := 0, row := wrap (s.row + 1) }

/-- The bytes are those of `data` up to `size`. -/
def Tty.terminalWrite (s : Tty) : List (BitVec 8) → Tty
  | [] => s
  | c :: rest => (if c = 10 then s.terminalNewline else s.terminalPutchar c).terminalWrite rest

/-- The bytes are those from `data` on; strlen ends at the first NUL. -/
def Tty.terminalWritestring (s : Tty) (data : List (BitVec 8)) : Tty :=
  s.terminalWrite (data.takeWhile (fun c => c ≠ 0))

def Tty.putchar (s : Tty) (ic : Int) : Tty := s.terminalWrite [BitVec.ofInt 8 ic]

end RiseOS
