import RiseOS.Library.Strings

/-! libc/string: strlen, memmove, memcpy, memset and memcmp. strlen takes its pointer as
the bytes from it on; a loop that outlasts 2^32 bytes has read the whole address space and
never ends: `none`. -/
namespace RiseOS
open Words

def stringFuel : Nat := 2 ^ 32

def strlenLoop (str : Nat → BitVec 8) : (fuel len : Nat) → Option Nat
  | 0, _ => none
  | fuel + 1, len => if str len ≠ 0#8 then strlenLoop str fuel (len + 1) else some len

def strlen (str : Nat → BitVec 8) : Option Nat := strlenLoop str stringFuel 0

/-- `for (size_t i = 0; i < size; i++) dst[i] = src[i];`, `count` rounds before its end. -/
def moveUp (dst src : Nat) : (count i : Nat) → Memory → Memory
  | 0, _, m => m
  | count + 1, i, m =>
      moveUp dst src count (i + 1) (Function.update m (wrap (dst + i)) (m (wrap (src + i))))

/-- `for (size_t i = size; i != 0; i--) dst[i - 1] = src[i - 1];` -/
def moveDown (dst src : Nat) : (i : Nat) → Memory → Memory
  | 0, m => m
  | i + 1, m => moveDown dst src i (Function.update m (wrap (dst + i)) (m (wrap (src + i))))

/-- The memory after the call, and the pointer it returns. -/
def memmove (m : Memory) (dstptr srcptr size : Nat) : Memory × Nat :=
  (if dstptr < srcptr then moveUp dstptr srcptr size 0 m else moveDown dstptr srcptr size m, dstptr)

def memcpy (m : Memory) (dstptr srcptr size : Nat) : Memory × Nat :=
  (moveUp dstptr srcptr size 0 m, dstptr)

def memset (m : Memory) (bufptr : Nat) (value : Int) (size : Nat) : Memory × Nat :=
  (fillBytes bufptr (BitVec.ofInt 8 value) size 0 m, bufptr)

def memcmpLoop (m : Memory) (aptr bptr : Nat) : (count i : Nat) → Int
  | 0, _ => 0
  | count + 1, i =>
      if m (wrap (aptr + i)) < m (wrap (bptr + i)) then -1
      else if m (wrap (bptr + i)) < m (wrap (aptr + i)) then 1
      else memcmpLoop m aptr bptr count (i + 1)

def memcmp (m : Memory) (aptr bptr size : Nat) : Int := memcmpLoop m aptr bptr size 0

end RiseOS
