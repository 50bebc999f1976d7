import RiseOS.Kernel.LibcString
import RiseOS.Kernel.Tty

/-! libc/stdio/printf.c over putchar of the console, and puts.c. -/
namespace RiseOS
open Words Strings

def intMax : Nat := 2147483647
def eof : Int := -1

/-- The locals of printf and the console behind it. `format` is the offset of the
format pointer, `read` is one more than the highest offset that was read there,
`emitted` collects what putchar was given, `arg` counts the arguments taken. -/
structure Printf where
  format : Nat
  written : Nat
  arg : Nat
  read : Nat
  emitted : List (BitVec 8)
  tty : Tty

/-- `format[k]` is read. -/
def Printf.look (s : Printf) (k : Nat) : Printf := { s with read := max s.read (s.format + k + 1) }

def Printf.putchar (s : Printf) (ic : Int) : Printf × Int :=
  ({ s with tty := s.tty.putchar ic, emitted := s.emitted ++ [BitVec.ofInt 8 ic] }, ic)

/-- The loop of print, `count` bytes before its end. -/
def Printf.printFrom (data : Nat → BitVec 8) : (count i : Nat) → Printf → Printf × Bool
  | 0, _, s => (s, true)
  | count + 1, i, s =>
      let r := s.putchar (data i).toNat
      if r.2 = eof then (r.1, false) else printFrom data count (i + 1) r.1

def Printf.print (s : Printf) (data : Nat → BitVec 8) (length : Nat) : Printf × Bool :=
  s.printFrom data length 0

/-- `if (maxrem < amount) return -1; if (!print(data, amount)) return -1; written += amount;`,
with false for the returns. For %c the source has `!maxrem`, which is `maxrem < 1`. -/
def Printf.printCounted (s : Printf) (data : Nat → BitVec 8) (amount : Nat) : Printf × Bool :=
  let maxrem := intMax - s.written
  if maxrem < amount then (s, false)
  else
    let r := s.print data amount
    if r.2 then ({ r.1 with written := r.1.written + amount }, true) else (r.1, false)

/-- `while (format[amount] && format[amount] != '%') amount++;` -/
def runLength (format : Nat → BitVec 8) : (fuel amount : Nat) → Option Nat
  | 0, _ => none
  | fuel + 1, amount =>
      if format amount ≠ 0#8 ∧ format amount ≠ ch '%' then runLength format fuel (amount + 1)
      else some amount

/-- The loop of printf with its return value, `none` when the fuel runs out. -/
def printfLoop (m : Memory) (format : Nat) (args : Nat → Nat) :
    (fuel : Nat) → Printf → Option (Int × Printf)
  | 0, _ => none
  | fuel + 1, s =>
      let s := s.look 0
      if window m format s.format = 0#8 then some (s.written, s)
      else
        let percent := window m format s.format = ch '%'
        let s := if percent then s.look 1 else s
        if ¬ percent ∨ window m format (s.format + 1) = ch '%' then
          let s := if percent then { s with format := s.format + 1 } else s
          (runLength (window m (format + s.format)) stringFuel 1).bind fun amount =>
            let (s, ok) := (s.look amount).printCounted (window m (format + s.format)) amount
            if ok then printfLoop m format args fuel { s with format := s.format + amount }
            else some (-1, s)
        else
          let formatBegunAt := s.format
          let s := { s with format := s.format + 1 }.look 0
          if window m format s.format = ch 'c' then
            let c := BitVec.ofNat 8 (args s.arg)
            let s := { s with format := s.format + 1, arg := s.arg + 1 }
            let (s, ok) := s.printCounted (fun _ => c) 1
            if ok then printfLoop m format args fuel s else some (-1, s)
          else if window m format s.format = ch 's' then
            let str := window m (args s.arg)
            let s := { s with format := s.format + 1, arg := s.arg + 1 }
            (strlen str).bind fun len =>
              let (s, ok) := s.printCounted str len
              if ok then printfLoop m format args fuel s else some (-1, s)
          else if window m format s.format = ch 'x' then
            -- a TODO in the source: the x is printed as the next character
            printfLoop m format args fuel s
          else
            let s := { s with format := formatBegunAt }
            (strlen (window m (format + s.format))).bind fun len =>
              let (s, ok) := (s.look len).printCounted (window m (format + s.format)) len
              if ok then printfLoop m format args fuel { s with format := s.format + len }
              else some (-1, s)

def printf (fuel : Nat) (m : Memory) (format : Nat) (args : Nat → Nat) (tty : Tty) :
    Option (Int × Printf) :=
  printfLoop m format args fuel ⟨0, 0, 0, 0, [], tty⟩

/-- `literal` is where the linker puts the format "%s\n". -/
def puts (fuel : Nat) (m : Memory) (literal string : Nat) (tty : Tty) : Option (Int × Printf) :=
  printf fuel m literal (fun _ => string) tty

end RiseOS
