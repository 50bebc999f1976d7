import RiseOS.Kernel.LibcString

/-! kernel/serial.c: itoa, strcpy, vsprintf and qemu_printf. The format and the
strings that arguments point to lie in one memory; the output buffer is an
object of its own, addressed from its first byte. -/
namespace RiseOS
open Words Strings

/-- The character for `tmp`; the sums are those of the source. -/
def itoaDigit (tmp : Nat) : BitVec 8 :=
  BitVec.ofNat 8 (if tmp < 10 then tmp + 48 else tmp + 97 - 10)

/-- `do { tmp = n % base; buf[i++] = ..; } while (n /= base);` -/
def digitLoop (base : Nat) : (fuel n i : Nat) → (buf : Nat → BitVec 8) →
    Option ((Nat → BitVec 8) × Nat)
  | 0, _, _, _ => none
  | fuel + 1, n, i, buf =>
      let tmp := n % base
      let buf := Function.update buf i (itoaDigit tmp)
      let n := n / base
      if n ≠ 0 then digitLoop base fuel n (i + 1) buf else some (buf, i + 1)

/-- `for (j = 0; j < i; j++, i--)` with the swap of `buf[j]` and `buf[i]`. -/
def swapLoop : (fuel j i : Nat) → (buf : Nat → BitVec 8) → Option (Nat → BitVec 8)
  | 0, _, _, _ => none
  | fuel + 1, j, i, buf =>
      if j < i then
        let tmp := buf j
        swapLoop fuel (j + 1) (i - 1) (Function.update (Function.update buf j (buf i)) i tmp)
      else some buf

def itoa (buf : Nat → BitVec 8) (n base : Nat) : Option (Nat → BitVec 8) :=
  (digitLoop base stringFuel n 0 buf).bind fun (buf, i) =>
    let buf := Function.update buf i 0#8
    swapLoop stringFuel 0 (i - 1) buf

def strcpyLoop (src : Nat → BitVec 8) (pos : Nat) : (fuel i : Nat) → (dst : Nat → BitVec 8) →
    Option ((Nat → BitVec 8) × Nat)
  | 0, _, _ => none
  | fuel + 1, i, dst =>
      let dst := Function.update dst (wrap (pos + i)) (src i)
      if src i ≠ 0#8 then strcpyLoop src pos fuel (i + 1) dst else some (dst, i)

/-- `strcpy(dst + pos, src)` with the count it returns. -/
def strcpy (dst : Nat → BitVec 8) (pos : Nat) (src : Nat → BitVec 8) :
    Option ((Nat → BitVec 8) × Nat) := strcpyLoop src pos stringFuel 0 dst

/-- The locals of vsprintf_helper and its two sinks. `chars` collects what the
callback is given, `format` counts the bytes of the format that were read, `arg`
the arguments taken. -/
structure Sprintf where
  str : Option (Nat → BitVec 8)
  pos : Nat
  chars : List (BitVec 8)
  buf : Nat → BitVec 8
  format : Nat
  arg : Nat

def Sprintf.putchar (s : Sprintf) (c : BitVec 8) : Sprintf := { s with chars := s.chars ++ [c] }

/-- One character, to the buffer if there is one. -/
def Sprintf.put (s : Sprintf) (c : BitVec 8) : Sprintf :=
  match s.str with
  | some str => { s with str := some (Function.update str s.pos c), pos := wrap (s.pos + 1) }
  | none => s.putchar c

/-- `while (*t) { putchar(*t); t++; }` -/
def putLoop (t : Nat → BitVec 8) : (fuel i : Nat) → Sprintf → Option Sprintf
  | 0, _, _ => none
  | fuel + 1, i, s => if t i ≠ 0#8 then putLoop t fuel (i + 1) (s.putchar (t i)) else some s

/-- A string, copied with its NUL to the buffer if there is one. -/
def Sprintf.putString (s : Sprintf) (t : Nat → BitVec 8) : Option Sprintf :=
  match s.str with
  | some str =>
      (strcpy str s.pos t).bind fun (str, _) =>
        (strlen t).map fun len => { s with str := some str, pos := wrap (s.pos + len) }
  | none => putLoop t stringFuel 0 s

/-- The local of that name; the code that would set it is commented out. -/
def sizeOverride : Nat := 0

def padZeros (buf : Nat → BitVec 8) (len size : Nat) : Nat → BitVec 8 :=
  let buf := (List.range len).foldl
    (fun buf i => Function.update buf (size - 1 - i) (buf (len - 1 - i))) buf
  (List.range (size - len)).foldl (fun buf i => Function.update buf i (ch '0')) buf

/-- The cases '0', 'd', 'u', 'x' and 'p', for the int `ival` given as its word. -/
def Sprintf.number (s : Sprintf) (c : BitVec 8) (ival : Nat) : Option Sprintf :=
  let sys := if c = ch 'd' ∨ c = ch 'u' then 10 else 16
  let sign := decide (c = ch 'd' ∧ signed ival < 0)
  -- INT_MIN is its own negation
  let uval := if sign then wsub 0 ival else ival
  (itoa s.buf uval sys).bind fun buf =>
    (strlen buf).bind fun len =>
      let size := if sizeOverride = 0 then len else 8
      let buf := if (c = ch 'x' ∨ c = ch 'p' ∨ c = ch 'd') ∧ len < size
        then padZeros buf len size else buf
      let s := { s with buf := buf }
      let s := if c = ch 'd' ∧ sign then s.put (ch '-') else s
      s.putString buf

/-- `switch (c)`; the argument is taken where the source says va_arg. -/
def Sprintf.conversion (s : Sprintf) (m : Memory) (args : Nat → Nat) (c : BitVec 8) :
    Option Sprintf :=
  if c = ch '0' ∨ c = ch 'd' ∨ c = ch 'u' ∨ c = ch 'x' ∨ c = ch 'p' then
    { s with arg := s.arg + 1 }.number c (args s.arg)
  else if c = ch 'c' then
    some ({ s with arg := s.arg + 1 }.put (BitVec.ofNat 8 (args s.arg)))
  else if c = ch 's' then
    { s with arg := s.arg + 1 }.putString (window m (args s.arg))
  else some s

/-- The loop over the format at address `format`, `none` when the fuel runs out. -/
def vsprintfHelper (m : Memory) (format : Nat) (args : Nat → Nat) :
    (fuel : Nat) → Sprintf → Option Sprintf
  | 0, _ => none
  | fuel + 1, s =>
      let c := window m format s.format
      let s := { s with format := s.format + 1 }
      if c = 0#8 then some s
      else if c = ch '%' then
        let c := window m format s.format
        let s := { s with format := s.format + 1 }
        (s.conversion m args c).bind (vsprintfHelper m format args fuel)
      else vsprintfHelper m format args fuel (s.put c)

/-- `str` is NULL or the buffer; the local `buf` has been cleared by memset. -/
def vsprintf (fuel : Nat) (m : Memory) (str : Option (Nat → BitVec 8)) (format : Nat)
    (args : Nat → Nat) : Option Sprintf :=
  vsprintfHelper m format args fuel ⟨str, 0, [], fun _ => 0#8, 0, 0⟩

/-- The characters that write_serial is given. -/
def qemuPrintf (fuel : Nat) (m : Memory) (s : Nat) (args : Nat → Nat) : Option (List (BitVec 8)) :=
  (vsprintf fuel m none s args).map Sprintf.chars

end RiseOS
