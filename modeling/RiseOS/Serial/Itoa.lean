import RiseOS.Library.Numerals
import RiseOS.Kernel.Serial

/-! The loops under vsprintf: what itoa leaves in its buffer, and how strlen,
strcpy and the callback loop go through a string. -/
namespace RiseOS
open Words Strings Numerals

theorem itoaDigit_eq (d : Nat) : itoaDigit d = digitByte d := rfl

theorem overlay_cons (b : Nat → BitVec 8) (pos : Nat) (c : BitVec 8) (rest : List (BitVec 8)) :
    overlay (Function.update b pos c) (pos + 1) rest = overlay b pos (c :: rest) := by
  have joined := overlay_overlay b pos [c] [] rest (Nat.zero_le _)
  rwa [List.append_nil, overlay_single] at joined

/-! ### itoa -/

theorem digitLoop_eq {base : Nat} (least : 2 ≤ base) (fuel n i : Nat) (buf : Nat → BitVec 8)
    (enough : (lowDigits base n).length ≤ fuel) : digitLoop base fuel n i buf =
      some (overlay buf i ((lowDigits base n).map digitByte), i + (lowDigits base n).length) := by
  induction fuel generalizing n i buf with
  | zero => exact absurd (lowDigits_positive least n) (by omega)
  | succ fuel ih =>
    unfold digitLoop
    dsimp only
    by_cases low : n < base
    · rw [if_neg (not_not.mpr (Nat.div_eq_of_lt low)), Nat.mod_eq_of_lt low, lowDigits_of_lt low,
        itoaDigit_eq, List.map_singleton, overlay_single, List.length_singleton]
    · have more : n / base ≠ 0 := Nat.ne_of_gt (Nat.div_pos (by omega) (by omega))
      have digits := lowDigits_of_ge least n (by omega)
      rw [digits, List.length_cons] at enough
      rw [if_pos more, ih _ _ _ (by omega), digits, List.map_cons, overlay_cons, itoaDigit_eq,
        List.length_cons, Nat.add_right_comm, Nat.add_assoc]

theorem swapLoop_eq (fuel j i : Nat) (buf : Nat → BitVec 8) (enough : i - j < fuel) :
    swapLoop fuel j i buf =
      some (fun k => if j ≤ k ∧ k ≤ i then buf (j + i - k) else buf k) := by
  induction fuel generalizing j i buf with
  | zero => omega
  | succ fuel ih =>
    unfold swapLoop
    dsimp only
    by_cases more : j < i
    · rw [if_pos more, ih _ _ _ (by omega)]
      refine congrArg some (funext fun k => ?_)
      have apart : j ≠ i := Nat.ne_of_lt more
      by_cases first : k = j
      · subst first
        rw [if_neg (by omega), if_pos (by omega), Nat.add_sub_cancel_left,
          Function.update_of_ne apart, Function.update_self]
      · by_cases last : k = i
        · subst last
          rw [if_neg (by omega), if_pos (by omega), Nat.add_sub_cancel, Function.update_self]
        · by_cases inside : j ≤ k ∧ k ≤ i
          · have mirror : j + 1 + (i - 1) - k = j + i - k := by omega
            rw [if_pos (by omega), if_pos inside, mirror, Function.update_of_ne (by omega),
              Function.update_of_ne (by omega)]
          · rw [if_neg (by omega), if_neg inside, Function.update_of_ne last,
              Function.update_of_ne first]
    · rw [if_neg more]
      refine congrArg some (funext fun k => ?_)
      split
      · rename_i here
        exact congrArg buf (by omega)
      · rfl

theorem overlay_start (b : Nat → BitVec 8) {text : List (BitVec 8)} {k : Nat}
    (inside : k < text.length) : overlay b 0 text k = text[k] := by
  have here := overlay_inside b 0 inside
  rwa [Nat.zero_add] at here

/-- Turning the digits round leaves the NUL and what lies behind it. -/
theorem overlay_reverse (b : Nat → BitVec 8) (text : List (BitVec 8)) (some : 0 < text.length) :
    (fun k => if 0 ≤ k ∧ k ≤ text.length - 1 then overlay b 0 (text ++ [0#8]) (0 + (text.length - 1) - k)
      else overlay b 0 (text ++ [0#8]) k) = overlay b 0 (text.reverse ++ [0#8]) := by
  have size : (text ++ [0#8]).length = text.length + 1 := by simp
  have size' : (text.reverse ++ [0#8]).length = text.length + 1 := by simp
  funext k
  by_cases inside : k < text.length
  · have mirror : 0 + (text.length - 1) - k = text.length - 1 - k := by omega
    rw [if_pos (by omega), mirror, overlay_start b (by omega), overlay_start b (by omega),
      List.getElem_append_left (by omega), List.getElem_append_left (by simpa using inside),
      List.getElem_reverse]
  · rw [if_neg (by omega)]
    by_cases last : k = text.length
    · have reversed : k = text.reverse.length := by simpa using last
      rw [overlay_start b (by omega), overlay_start b (by omega), List.getElem_concat_length last,
        List.getElem_concat_length reversed]
    · rw [overlay_behind (by omega), overlay_behind (by omega)]

/-- itoa writes the numeral and its NUL at the start of the buffer. -/
theorem itoa_eq {base n : Nat} (least : 2 ≤ base) (word : n < 2 ^ 32) (buf : Nat → BitVec 8) :
    itoa buf n base = some (overlay buf 0 (numeral base n ++ [0#8])) := by
  have short : (lowDigits base n).length ≤ 32 :=
    lowDigits_length least n (by decide)
      (Nat.lt_of_lt_of_le word (Nat.pow_le_pow_left least 32))
  have some := lowDigits_positive least n
  have size : ((lowDigits base n).map digitByte).length = (lowDigits base n).length :=
    List.length_map _
  have closed := overlay_overlay buf 0 ((lowDigits base n).map digitByte) [] [0#8] (by simp)
  rw [List.append_nil, Nat.zero_add, size, overlay_single] at closed
  have turned := overlay_reverse buf ((lowDigits base n).map digitByte) (by omega)
  rw [size] at turned
  rw [itoa, digitLoop_eq least stringFuel n 0 buf (by unfold stringFuel; omega), Option.bind_some]
  dsimp only
  rw [Nat.zero_add, closed, swapLoop_eq _ _ _ _ (by unfold stringFuel; omega), turned, numeral]

/-- The string in `out` is a numeral of `n` and takes at most 33 bytes with its NUL;
`buf` was there before and is left as it was behind it. -/
structure Encodes (base n : Nat) (buf out : Nat → BitVec 8) (text : List (BitVec 8)) : Prop where
  string : CString out text
  numeral : IsNumeral base n text
  short : text.length + 1 ≤ 33
  behind : ∀ k, text.length < k → out k = buf k

section Encoder

variable {base : Nat} (least : 2 ≤ base) (most : base ≤ 36)
include least most

theorem itoa_numeral {n : Nat} (word : n < 2 ^ 32) (buf : Nat → BitVec 8) :
    Encodes base n buf (overlay buf 0 (numeral base n ++ [0#8])) (numeral base n) := by
  have short : (numeral base n).length ≤ 32 :=
    numeral_length least n (by decide) (Nat.lt_of_lt_of_le word (Nat.pow_le_pow_left least 32))
  constructor
  · exact cstring_overlay buf (numeral_nonzero least n most)
  · exact numeral_isNumeral least n most
  · omega
  · intro k behind
    apply overlay_behind
    simp
    omega

/-- itoa ends and encodes every word; two words never give the same string. -/
theorem itoa_encodes :
    (∀ n buf, n < 2 ^ 32 → ∃ out text, itoa buf n base = some out ∧ Encodes base n buf out text) ∧
      ∀ n n' buf buf' out out', n < 2 ^ 32 → n' < 2 ^ 32 → itoa buf n base = some out →
        itoa buf' n' base = some out' → stringAt out = stringAt out' → n = n' := by
  constructor
  · intro n buf word
    exact ⟨_, _, itoa_eq least word buf, itoa_numeral least most word buf⟩
  · intro n n' buf buf' out out' word word' ran ran' same
    have string : ∀ n buf out, n < 2 ^ 32 → itoa buf n base = some out →
        stringAt out = numeral base n := by
      intro n buf out word ran
      have encodes := itoa_numeral least most word buf
      have short := encodes.short
      rw [itoa_eq least word buf] at ran
      cases ran
      exact stringAt_eq encodes.string (by omega)
    rw [string n buf out word ran, string n' buf' out' word' ran'] at same
    rw [← (numeral_isNumeral least n most).value, same]
    exact (numeral_isNumeral least n' most).value

end Encoder

/-- 255 in base 16, over a buffer of ones. -/
theorem byte_encoded : ∃ out text, itoa (fun _ => 1#8) 255 16 = some out ∧
    Encodes 16 255 (fun _ => 1#8) out text :=
  (itoa_encodes (by decide) (by decide)).1 255 (fun _ => 1#8) (by decide)

/-! ### Strings -/

theorem strlenLoop_eq {t : Nat → BitVec 8} {text : List (BitVec 8)} (string : CString t text)
    (fuel len : Nat) (inside : len ≤ text.length) (enough : text.length - len < fuel) :
    strlenLoop t fuel len = some text.length := by
  induction fuel generalizing len with
  | zero => omega
  | succ fuel ih =>
    rw [strlenLoop]
    by_cases last : len = text.length
    · rw [last, if_neg (not_not.mpr string.nul)]
    · have byte := string.chars len (by omega)
      have more : t len ≠ 0#8 := byte ▸ string.nonzero _ (List.getElem_mem _)
      rw [if_pos more]
      exact ih (len + 1) (by omega) (by omega)

theorem strlen_eq {t : Nat → BitVec 8} {text : List (BitVec 8)} (string : CString t text)
    (short : text.length < 2 ^ 32) : strlen t = some text.length :=
  strlenLoop_eq string stringFuel 0 (Nat.zero_le _) short

theorem strcpyLoop_eq {src : Nat → BitVec 8} (rest : List (BitVec 8)) (pos fuel i : Nat)
    (dst : Nat → BitVec 8) (string : CString (fun k => src (i + k)) rest)
    (enough : rest.length < fuel) :
    ∃ copied, strcpyLoop src pos fuel i dst = some (copied, i + rest.length) ∧
      (pos + i + rest.length < 2 ^ 32 → copied = overlay dst (pos + i) (rest ++ [0#8])) := by
  induction rest generalizing fuel i dst with
  | nil =>
    obtain ⟨fuel, rfl⟩ : ∃ f, fuel = f + 1 := ⟨fuel - 1, by omega⟩
    have nul : src i = 0#8 := string.nul
    refine ⟨Function.update dst (wrap (pos + i)) 0#8, ?_, fun room => ?_⟩
    · rw [strcpyLoop, nul, if_neg (not_not.mpr rfl)]
      rfl
    · rw [wrap_eq (n := pos + i) room, List.nil_append, overlay_single]
  | cons c rest ih =>
    obtain ⟨fuel, rfl⟩ : ∃ f, fuel = f + 1 := ⟨fuel - 1, by omega⟩
    obtain ⟨byte, nonzero, later⟩ := cstring_from_cons string
    rw [List.length_cons] at enough ⊢
    obtain ⟨copied, ran, laid⟩ := ih fuel (i + 1) (Function.update dst (wrap (pos + i)) c)
      later (by omega)
    refine ⟨copied, ?_, fun room => ?_⟩
    · rw [strcpyLoop, byte, if_pos nonzero, ran, Nat.add_assoc, Nat.add_comm 1]
    · rw [laid (by omega), wrap_eq (n := pos + i) (by omega), ← Nat.add_assoc, overlay_cons,
        List.cons_append]

theorem strcpy_eq {src : Nat → BitVec 8} {text : List (BitVec 8)} (string : CString src text)
    (short : text.length < 2 ^ 32) (dst : Nat → BitVec 8) (pos : Nat) :
    ∃ copied, strcpy dst pos src = some (copied, text.length) ∧
      (pos + text.length < 2 ^ 32 → copied = overlay dst pos (text ++ [0#8])) := by
  have ran := strcpyLoop_eq text pos stringFuel 0 dst (cstring_from_zero string) short
  rwa [Nat.zero_add] at ran

theorem putLoop_eq {t : Nat → BitVec 8} (rest : List (BitVec 8)) (fuel i : Nat) (s : Sprintf)
    (string : CString (fun k => t (i + k)) rest) (enough : rest.length < fuel) :
    putLoop t fuel i s = some { s with chars := s.chars ++ rest } := by
  induction rest generalizing fuel i s with
  | nil =>
    obtain ⟨fuel, rfl⟩ : ∃ f, fuel = f + 1 := ⟨fuel - 1, by omega⟩
    have nul : t i = 0#8 := string.nul
    rw [putLoop, if_neg (not_not.mpr nul), List.append_nil]
  | cons c rest ih =>
    obtain ⟨fuel, rfl⟩ : ∃ f, fuel = f + 1 := ⟨fuel - 1, by omega⟩
    obtain ⟨byte, nonzero, later⟩ := cstring_from_cons string
    rw [List.length_cons] at enough
    rw [putLoop, byte, if_pos nonzero, ih fuel (i + 1) _ later (by omega)]
    simp only [Sprintf.putchar, List.append_assoc, List.singleton_append]

end RiseOS
