import Mathlib.Data.Nat.Digits.Lemmas

/-! Numerals in a base up to 36, as bytes with the digits 0-9a-z. -/
namespace Numerals

/-- The digits of a number, lowest first. Zero has one digit. -/
def lowDigits (base n : Nat) : List Nat := if n = 0 then [0] else Nat.digits base n

def digitByte (d : Nat) : BitVec 8 := BitVec.ofNat 8 (if d < 10 then d + 48 else d + 87)

def numeral (base n : Nat) : List (BitVec 8) := ((lowDigits base n).map digitByte).reverse

/-- The value of a digit, and that of a text read from the left. -/
def digitValue (c : BitVec 8) : Nat := if c.toNat < 58 then c.toNat - 48 else c.toNat - 87

def readNumeral (base : Nat) (text : List (BitVec 8)) : Nat :=
  text.foldl (fun v c => v * base + digitValue c) 0

/-- One of 0-9a-z, and a digit of the base. -/
def IsDigit (base : Nat) (c : BitVec 8) : Prop :=
  (48 ≤ c.toNat ∧ c.toNat ≤ 57 ∨ 97 ≤ c.toNat ∧ c.toNat ≤ 122) ∧ digitValue c < base

/-- `text` denotes `n`, and a zero leads only where it stands alone. -/
structure IsNumeral (base n : Nat) (text : List (BitVec 8)) : Prop where
  some : text ≠ []
  digits : ∀ c ∈ text, IsDigit base c
  leading : text.head? = Option.some (digitByte 0) → n = 0 ∧ text = [digitByte 0]
  value : readNumeral base text = n

theorem digitByte_toNat {d : Nat} (hd : d < 36) :
    (digitByte d).toNat = if d < 10 then d + 48 else d + 87 := by
  rw [digitByte, BitVec.toNat_ofNat]
  apply Nat.mod_eq_of_lt
  split <;> omega

theorem digitValue_digitByte {d : Nat} (hd : d < 36) : digitValue (digitByte d) = d := by
  rw [digitValue, digitByte_toNat hd]
  split <;> split <;> omega

theorem digitByte_isDigit {base d : Nat} (below : d < base) (most : base ≤ 36) :
    IsDigit base (digitByte d) := by
  have hd : d < 36 := by omega
  constructor
  · rw [digitByte_toNat hd]
    split <;> omega
  · rwa [digitValue_digitByte hd]

/-- Reading from the left is reading the digits from the highest one down. -/
theorem readNumeral_digits (base : Nat) (ds : List Nat) (small : ∀ d ∈ ds, d < 36) :
    readNumeral base (ds.map digitByte).reverse = Nat.ofDigits base ds := by
  rw [readNumeral, List.foldl_reverse]
  induction ds with
  | nil => rfl
  | cons d ds ih =>
    have rest := ih fun e member => small e (List.mem_cons_of_mem d member)
    simp only [List.map_cons, List.foldr_cons, rest, Nat.ofDigits_cons,
      digitValue_digitByte (small d List.mem_cons_self)]
    ring

theorem digitByte_inj {c d : Nat} (hc : c < 36) (hd : d < 36) (same : digitByte c = digitByte d) :
    c = d := by
  have value := congrArg digitValue same
  rwa [digitValue_digitByte hc, digitValue_digitByte hd] at value

theorem digitByte_ne_zero {d : Nat} (hd : d < 36) : digitByte d ≠ 0#8 := by
  intro zero
  have value := congrArg BitVec.toNat zero
  rw [digitByte_toNat hd] at value
  split at value <;> simp at value

theorem lowDigits_of_lt {base n : Nat} (low : n < base) : lowDigits base n = [n] := by
  unfold lowDigits
  split
  · rename_i zero
    rw [zero]
  · rename_i positive
    exact Nat.digits_of_lt base n positive low

theorem lowDigits_value (base n : Nat) : Nat.ofDigits base (lowDigits base n) = n := by
  unfold lowDigits
  split
  · rename_i zero
    simp [zero]
  · exact Nat.ofDigits_digits base n

section Digits

variable {base : Nat} (least : 2 ≤ base) (n : Nat)
include least

theorem lowDigits_of_ge (high : base ≤ n) :
    lowDigits base n = n % base :: lowDigits base (n / base) := by
  have quotient : n / base ≠ 0 := Nat.ne_of_gt (Nat.div_pos high (by omega))
  rw [lowDigits, lowDigits, if_neg (by omega), if_neg quotient,
    Nat.digits_eq_cons_digits_div (by omega) (by omega)]

theorem lowDigits_lt : ∀ d ∈ lowDigits base n, d < base := by
  intro d member
  unfold lowDigits at member
  split at member
  · rw [List.mem_singleton.mp member]
    omega
  · exact Nat.digits_lt_base (by omega) member

theorem lowDigits_length {k : Nat} (some : 0 < k) (bound : n < base ^ k) :
    (lowDigits base n).length ≤ k := by
  unfold lowDigits
  split
  · exact some
  · exact (Nat.digits_length_le_iff (by omega) n).mpr bound

theorem lowDigits_positive : 0 < (lowDigits base n).length := by
  by_cases low : n < base
  · rw [lowDigits_of_lt low]
    exact Nat.one_pos
  · rw [lowDigits_of_ge least n (by omega)]
    exact Nat.succ_pos _

theorem numeral_nonzero (most : base ≤ 36) : ∀ c ∈ numeral base n, c ≠ 0#8 := by
  intro c member
  rw [numeral, List.mem_reverse, List.mem_map] at member
  obtain ⟨d, digit, rfl⟩ := member
  exact digitByte_ne_zero (Nat.lt_of_lt_of_le (lowDigits_lt least n d digit) most)

/-- No numeral but that of zero begins with the digit 0. -/
theorem numeral_leading (most : base ≤ 36) (zero : (numeral base n).head? = some (digitByte 0)) :
    n = 0 := by
  by_contra positive
  have digits : lowDigits base n = Nat.digits base n := if_neg positive
  have some : Nat.digits base n ≠ [] := Nat.digits_ne_nil_iff_ne_zero.mpr positive
  rw [numeral, digits, List.head?_reverse, List.getLast?_map, List.getLast?_eq_some_getLast some,
    Option.map_some, Option.some.injEq] at zero
  have below : (Nat.digits base n).getLast some < base :=
    Nat.digits_lt_base (by omega) (List.getLast_mem some)
  exact Nat.getLast_digit_ne_zero base positive (digitByte_inj (by omega) (by omega) zero)

theorem numeral_length {k : Nat} (some : 0 < k) (bound : n < base ^ k) :
    (numeral base n).length ≤ k := by
  simpa [numeral] using lowDigits_length least n some bound

theorem numeral_isNumeral (most : base ≤ 36) : IsNumeral base n (numeral base n) := by
  have below := lowDigits_lt least n
  constructor
  · apply List.ne_nil_of_length_pos
    simpa [numeral] using lowDigits_positive least n
  · intro c member
    simp only [numeral, List.mem_reverse, List.mem_map] at member
    obtain ⟨d, digit, rfl⟩ := member
    exact digitByte_isDigit (below d digit) most
  · intro lead
    have zero := numeral_leading least n most lead
    subst zero
    exact ⟨rfl, rfl⟩
  · rw [numeral, readNumeral_digits base _ fun d digit => Nat.lt_of_lt_of_le (below d digit) most]
    exact lowDigits_value base n

end Digits

end Numerals
