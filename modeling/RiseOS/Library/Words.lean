import Mathlib.Data.Nat.Bitwise
import Mathlib.Order.CompletePartialOrder
import Mathlib.Order.Interval.Set.Disjoint

/-! Unsigned 32-bit words are natural numbers, reduced with `wrap` wherever the
machine's addition, subtraction or multiplication may leave the word. Pages are
blocks of 2^12 addresses. -/
namespace Words

/-- The value a 32-bit register keeps of a mathematical result. -/
def wrap (n : Nat) : Nat := n % 2 ^ 32

/-- The two's complement reading of a 32-bit word. -/
def signed (w : Nat) : Int := if w < 2 ^ 31 then (w : Int) else (w : Int) - 2 ^ 32

def ofInt (i : Int) : Nat := (i % 2 ^ 32).toNat

def wsub (a b : Nat) : Nat := wrap (2 ^ 32 - b + a)

def bytes (a n : Nat) : Set Nat := Set.Ico a (a + n)

theorem wrap_lt (n : Nat) : wrap n < 2 ^ 32 := Nat.mod_lt _ (by decide)

theorem wrap_eq {n : Nat} (h : n < 2 ^ 32) : wrap n = n := Nat.mod_eq_of_lt h

theorem wsub_eq {a b : Nat} (ha : a < 2 ^ 32) (h : b ≤ a) : wsub a b = a - b := by
  unfold wsub wrap
  omega

theorem wrap_add (a n : Nat) : wrap (a + wrap n) = wrap (a + n) := by
  simp only [wrap]
  omega

theorem wsub_wsub (a b k : Nat) (low : b + k ≤ 2 ^ 32) : wsub (wsub a b) k = wsub a (b + k) := by
  simp only [wsub, wrap]
  omega

theorem signed_neg {w : Nat} (h : 2 ^ 31 ≤ w) (word : w < 2 ^ 32) : signed w < 0 := by
  rw [signed, if_neg (by omega)]
  omega

theorem disjoint_bytes {a m b n : Nat} :
    Disjoint (bytes a m) (bytes b n) ↔ m = 0 ∨ n = 0 ∨ a + m ≤ b ∨ b + n ≤ a := by
  rw [bytes, bytes, Set.Ico_disjoint_Ico]
  omega

theorem and_pageMask {a : Nat} (h : a < 2 ^ 32) : a &&& 0xFFFFF000 = a / 4096 * 4096 := by
  have mask : (0xFFFFF000 : Nat) = (2 ^ 20 - 1) <<< 12 := by decide
  have page : a / 4096 * 4096 = (a >>> 12) <<< 12 := by
    rw [Nat.shiftLeft_eq, Nat.shiftRight_eq_div_pow]
  rw [mask, page]
  apply Nat.eq_of_testBit_eq
  intro i
  simp only [Nat.testBit_and, Nat.testBit_shiftLeft, Nat.testBit_shiftRight,
    Nat.testBit_two_pow_sub_one]
  by_cases low : 12 ≤ i
  · have shift : 12 + (i - 12) = i := by omega
    by_cases high : i < 32
    · have inside : i - 12 < 20 := by omega
      simp [low, inside, shift]
    · have zero : a.testBit i = false :=
        Nat.testBit_lt_two_pow (Nat.lt_of_lt_of_le h (Nat.pow_le_pow_right (by decide) (by omega)))
      simp [zero, shift]
  · simp [low]

theorem and_offsetMask (a : Nat) : a &&& 0xFFF = a % 4096 := by
  have mask : (0xFFF : Nat) = 2 ^ 12 - 1 := by decide
  rw [mask, Nat.and_two_pow_sub_one_eq_mod]

theorem and_tenBits (a : Nat) : a &&& 0x3FF = a % 1024 := by
  have mask : (0x3FF : Nat) = 2 ^ 10 - 1 := by decide
  rw [mask, Nat.and_two_pow_sub_one_eq_mod]

end Words
