import RiseOS.Serial.Format

/-! What vsprintf owes: the rendering of its format on the serial line, the same
text and a NUL in a buffer, and no reading past the format's end. -/
namespace RiseOS
open Words Strings Numerals

/-! ### The rendering on the serial line -/

/-- The items whose rendering is promised. -/
def Plain : Item → Prop
  | .literal c => c ≠ ch '%'
  | .conversion c => c ∈ [ch 'd', ch 'u', ch 'x', ch 'p', ch 'c', ch 's']

theorem parse_bytes {items : List Item} (plain : ∀ i ∈ items, Plain i) :
    parse (items.flatMap Item.bytes) = some items := by
  induction items with
  | nil => rfl
  | cons i items ih =>
    have later := ih fun j member => plain j (List.mem_cons_of_mem i member)
    have here := plain i List.mem_cons_self
    cases i with
    | literal c =>
      rw [List.flatMap_cons, Item.bytes, List.singleton_append, parse_literal here, later,
        Option.map_some]
    | conversion c =>
      rw [List.flatMap_cons, Item.bytes, List.cons_append, List.singleton_append, parse_conversion,
        later, Option.map_some]

/-- qemu_printf writes its literals and the rendering of each argument in turn;
the numerals in it have no leading zeros. -/
theorem qemuPrintf_renders (m : Memory) (s : Nat) (args : Nat → Nat) (items : List Item)
    (plain : ∀ i ∈ items, Plain i) (string : CString (window m s) (items.flatMap Item.bytes))
    (words : ∀ k, args k < 2 ^ 32) :
    (∃ fuel, qemuPrintf fuel m s args = some (itemsText m args items 0)) ∧
      ∀ n, ((numeral 10 n).head? = some (ch '0') → n = 0) ∧
        ((numeral 16 n).head? = some (ch '0') → n = 0) := by
  constructor
  · obtain ⟨t, ran, _, emits⟩ := helper_spec m s args words items _
      ⟨none, 0, [], fun _ => 0#8, 0, 0⟩ (parse_bytes plain) string (string_ends string)
    have text := (emits fun some => absurd some Bool.false_ne_true).chars
    refine ⟨items.length + 1, ?_⟩
    rw [qemuPrintf, vsprintf, ran, Option.map_some, text]
    rfl
  · intro n
    exact ⟨numeral_leading (by decide) n (by decide), numeral_leading (by decide) n (by decide)⟩

/-- "%d" of INT_MIN. -/
theorem least_int_rendered : ∃ fuel,
    qemuPrintf fuel (textMemory [ch '%', ch 'd']) 0 (fun _ => 0x80000000) =
      some (ch '-' :: numeral 10 2147483648) := by
  have string : CString (window (textMemory [ch '%', ch 'd']) 0) [ch '%', ch 'd'] :=
    textMemory_string (by decide) (by decide)
  obtain ⟨fuel, shown⟩ := (qemuPrintf_renders (textMemory [ch '%', ch 'd']) 0 (fun _ => 0x80000000)
    [.conversion (ch 'd')] (by simp [Plain]) string (fun _ => by decide)).1
  refine ⟨fuel, shown.trans ?_⟩
  simp only [itemsText, conversionText, List.append_nil]
  rfl

/-! ### The end of the format -/

section Reading

variable (m : Memory) (format : Nat) (args : Nat → Nat) (words : ∀ k, args k < 2 ^ 32)
  (ends : ∃ z, m (wrap z) = 0#8)
include words ends

theorem conversion_format {s u : Sprintf} {c : BitVec 8} (ran : s.conversion m args c = some u) :
    u.format = s.format := by
  obtain ⟨u', ran', format', _⟩ := conversion_spec s m args c words ends
  rw [ran'] at ran
  exact Option.some.inj ran ▸ format'

theorem helper_advances (fuel : Nat) (s t : Sprintf)
    (ran : vsprintfHelper m format args fuel s = some t) : s.format < t.format := by
  induction fuel generalizing s with
  | zero => cases ran
  | succ fuel ih =>
    rw [vsprintfHelper] at ran
    dsimp only at ran
    split at ran
    · rw [← Option.some.inj ran]
      exact Nat.lt_succ_self _
    · split at ran
      · obtain ⟨u, converted, rest⟩ := Option.bind_eq_some_iff.mp ran
        have same := conversion_format m args words ends converted
        have later := ih u rest
        dsimp only at same
        omega
      · have later := ih _ ran
        rw [(put_rest _ _).1] at later
        dsimp only at later
        omega

/-- Behind a lone % the loop skips the NUL and reads at least one byte more. -/
theorem helper_beyond (fuel : Nat) (bs : List (BitVec 8)) (s t : Sprintf) (lone : parse bs = none)
    (string : CString (window m (format + s.format)) bs)
    (ran : vsprintfHelper m format args fuel s = some t) : s.format + bs.length + 2 ≤ t.format := by
  induction fuel generalizing bs s with
  | zero => cases ran
  | succ fuel ih =>
    rw [vsprintfHelper] at ran
    dsimp only at ran
    cases bs with
    | nil => cases lone
    | cons c rest =>
      obtain ⟨first, nonzero, later⟩ := (cstring_window_cons m _ c rest).mp string
      have byte : window m format s.format = c := first
      rw [byte, if_neg nonzero] at ran
      by_cases percent : c = ch '%'
      · subst percent
        rw [if_pos rfl] at ran
        obtain ⟨u, converted, onward⟩ := Option.bind_eq_some_iff.mp ran
        have same := conversion_format m args words ends converted
        dsimp only at same
        cases rest with
        | nil =>
          have behind := helper_advances m format args words ends fuel u t onward
          rw [List.length_singleton]
          omega
        | cons d rest =>
          obtain ⟨_, _, string'⟩ := (cstring_window_cons m _ d rest).mp later
          rw [parse_conversion, Option.map_eq_none_iff] at lone
          have further := ih rest u lone (by rw [same, ← Nat.add_assoc, ← Nat.add_assoc]; exact string')
            onward
          rw [List.length_cons, List.length_cons]
          omega
      · rw [if_neg percent] at ran
        rw [parse_literal percent, Option.map_eq_none_iff] at lone
        have same := (put_rest { s with format := s.format + 1 } c).1
        have further := ih rest _ lone (by rw [same, ← Nat.add_assoc]; exact later) ran
        rw [same] at further
        rw [List.length_cons]
        dsimp only at further
        omega

end Reading

/-- The call ends, and the bytes it has read are those up to the NUL. -/
def StopsAtNul (m : Memory) (str : Option (Nat → BitVec 8)) (format : Nat) (args : Nat → Nat)
    (length : Nat) : Prop :=
  ∃ fuel t, vsprintf fuel m str format args = some t ∧ t.format ≤ length + 1

/-- The formatter stops at the end of exactly the formats without a lone % there. -/
theorem stops_iff_parsed (m : Memory) (str : Option (Nat → BitVec 8)) (format : Nat)
    (args : Nat → Nat) (bs : List (BitVec 8)) (string : CString (window m format) bs)
    (words : ∀ k, args k < 2 ^ 32) :
    StopsAtNul m str format args bs.length ↔ (parse bs).isSome := by
  have ends := string_ends string
  constructor
  · rintro ⟨fuel, t, ran, read⟩
    by_contra lone
    have beyond := helper_beyond m format args words ends fuel bs
      ⟨str, 0, [], fun _ => 0#8, 0, 0⟩ t (by simpa using lone) string ran
    dsimp only at beyond
    omega
  · intro parsed
    obtain ⟨items, parsed⟩ := Option.isSome_iff_exists.mp parsed
    obtain ⟨t, ran, read, _⟩ := helper_spec m format args words items bs
      ⟨str, 0, [], fun _ => 0#8, 0, 0⟩ parsed string ends
    refine ⟨items.length + 1, t, ran, ?_⟩
    rw [read]
    dsimp only
    omega

/-- The format "%%%q". -/
theorem unknown_letter_stops :
    StopsAtNul (textMemory [ch '%', ch '%', ch '%', ch 'q']) none 0 (fun _ => 0) 4 :=
  (stops_iff_parsed (textMemory [ch '%', ch '%', ch '%', ch 'q']) none 0 (fun _ => 0)
    [ch '%', ch '%', ch '%', ch 'q'] (textMemory_string (by decide) (by decide))
    (fun _ => by decide)).mpr (by decide)

/-- On the format "%" the byte behind the NUL is read. -/
theorem lone_percent_read_over : ¬ StopsAtNul (textMemory [ch '%']) none 0 (fun _ => 0) 1 := by
  have string : CString (window (textMemory [ch '%']) 0) [ch '%'] :=
    textMemory_string (by decide) (by decide)
  rintro ⟨fuel, t, ran, read⟩
  have beyond := helper_beyond (textMemory [ch '%']) 0 (fun _ => 0) (fun _ => by decide)
    (string_ends string) fuel [ch '%'] ⟨none, 0, [], fun _ => 0#8, 0, 0⟩ t (by decide) string ran
  rw [List.length_singleton] at beyond
  dsimp only at beyond
  omega

/-! ### The two sinks -/

theorem helper_more_fuel (m : Memory) (format : Nat) (args : Nat → Nat) {fuel more : Nat}
    (le : fuel ≤ more) (s t : Sprintf) (ran : vsprintfHelper m format args fuel s = some t) :
    vsprintfHelper m format args more s = some t := by
  induction fuel generalizing more s with
  | zero => cases ran
  | succ fuel ih =>
    obtain ⟨more, rfl⟩ : ∃ n, more = n + 1 := ⟨more - 1, by omega⟩
    rw [vsprintfHelper] at ran ⊢
    dsimp only at ran ⊢
    split at ran
    · rename_i nul
      rw [if_pos nul, ran]
    · rename_i nonzero
      rw [if_neg nonzero]
      split at ran
      · rename_i percent
        obtain ⟨u, converted, rest⟩ := Option.bind_eq_some_iff.mp ran
        rw [if_pos percent, converted, Option.bind_some]
        exact ih (by omega) u rest
      · rename_i plain
        rw [if_neg plain]
        exact ih (by omega) _ ran

/-- Two calls that end have the same result, however long each was allowed to run. -/
theorem vsprintf_unique {m : Memory} {str : Option (Nat → BitVec 8)} {format : Nat}
    {args : Nat → Nat} {fuel fuel' : Nat} {s t : Sprintf}
    (one : vsprintf fuel m str format args = some s)
    (two : vsprintf fuel' m str format args = some t) : s = t := by
  have first := helper_more_fuel m format args (Nat.le_max_left fuel fuel') _ s one
  have second := helper_more_fuel m format args (Nat.le_max_right fuel fuel') _ t two
  exact Option.some.inj (first.symm.trans second)

/-- The buffer holds what the callback would be given, and a NUL behind it. -/
def SinksAgree (m : Memory) (str : Nat → BitVec 8) (format : Nat) (args : Nat → Nat) : Prop :=
  ∃ fuel s t written, vsprintf fuel m (some str) format args = some s ∧
    vsprintf fuel m none format args = some t ∧ s.str = some written ∧
    (∀ k (inside : k < t.chars.length), written k = t.chars[k]) ∧ written t.chars.length = 0#8

section Sinks

variable (m : Memory) (str : Nat → BitVec 8) (format : Nat) (args : Nat → Nat)
  (bs : List (BitVec 8)) (items : List Item)

theorem sink_results (parsed : parse bs = some items) (string : CString (window m format) bs)
    (words : ∀ k, args k < 2 ^ 32) (room : (itemsText m args items 0).length + 1 ≤ 2 ^ 32) :
    ∃ s t, vsprintf (items.length + 1) m (some str) format args = some s ∧
      vsprintf (items.length + 1) m none format args = some t ∧
      s.str = some (overlay str 0
        (itemsText m args items 0 ++ if endsCopied items then [0#8] else [])) ∧
      t.chars = itemsText m args items 0 := by
  obtain ⟨s, ranS, _, emitsS⟩ := helper_spec m format args words items bs
    ⟨some str, 0, [], fun _ => 0#8, 0, 0⟩ parsed string (string_ends string)
  obtain ⟨t, ranT, _, emitsT⟩ := helper_spec m format args words items bs
    ⟨none, 0, [], fun _ => 0#8, 0, 0⟩ parsed string (string_ends string)
  refine ⟨s, t, ranS, ranT, ?_, ?_⟩
  · exact (emitsS fun _ => by rw [Nat.zero_add]; exact room).str
  · exact (emitsT fun some => absurd some Bool.false_ne_true).chars

/-- vsprintf closes the string only with the NUL of a copied conversion: the two
sinks agree when one of these comes last, or when a NUL was in its place before. -/
theorem sinks_agree_iff (parsed : parse bs = some items) (string : CString (window m format) bs)
    (words : ∀ k, args k < 2 ^ 32) (room : (itemsText m args items 0).length + 1 ≤ 2 ^ 32) :
    SinksAgree m str format args ↔
      endsCopied items ∨ str (itemsText m args items 0).length = 0#8 := by
  obtain ⟨s, t, ranS, ranT, written, chars⟩ :=
    sink_results m str format args bs items parsed string words room
  have closing : overlay str 0 (itemsText m args items 0 ++ if endsCopied items then [0#8] else [])
      (itemsText m args items 0).length =
        if endsCopied items then 0#8 else str (itemsText m args items 0).length := by
    split
    · have last : (itemsText m args items 0).length < (itemsText m args items 0 ++ [0#8]).length := by
        simp
      rw [overlay_start str last, List.getElem_concat_length rfl]
    · rw [List.append_nil, overlay_behind (by omega)]
  constructor
  · rintro ⟨fuel, s', t', written', ranS', ranT', here, _, nul⟩
    obtain rfl := vsprintf_unique ranS ranS'
    obtain rfl := vsprintf_unique ranT ranT'
    obtain rfl := Option.some.inj (written.symm.trans here)
    rw [chars, closing] at nul
    split at nul
    · rename_i copied
      exact .inl copied
    · exact .inr nul
  · intro closed
    refine ⟨_, s, t, _, ranS, ranT, written, fun k inside => ?_, ?_⟩
    · have longer : k < (itemsText m args items 0 ++ if endsCopied items then [0#8] else []).length := by
        rw [List.length_append, ← chars]
        omega
      rw [overlay_start str longer, List.getElem_append_left (by rw [← chars]; exact inside)]
      simp only [chars]
    · rw [chars, closing]
      split
      · rfl
      · rename_i literal
        exact closed.resolve_left literal

end Sinks

theorem number_format_sinks_agree :
    SinksAgree (textMemory [ch '%', ch 'u']) (fun _ => 1#8) 0 (fun _ => 0) := by
  have zero : numeral 10 0 = [ch '0'] := by decide
  refine (sinks_agree_iff (textMemory [ch '%', ch 'u']) (fun _ => 1#8) 0 (fun _ => 0)
    [ch '%', ch 'u'] [.conversion (ch 'u')] (by decide)
    (textMemory_string (by decide) (by decide)) (fun _ => by decide) ?_).mpr (.inl (by decide))
  simp only [itemsText, conversionText, List.append_nil]
  decide

/-- The format "a" leaves the byte behind the a as it was. -/
theorem literal_format_unterminated :
    ¬ SinksAgree (textMemory [ch 'a']) (fun _ => 1#8) 0 (fun _ => 0) := by
  rintro ⟨fuel, s, t, written, ranS, ranT, here, _, nul⟩
  obtain ⟨s', t', ranS', ranT', written', chars⟩ := sink_results (textMemory [ch 'a'])
    (fun _ => 1#8) 0 (fun _ => 0) [ch 'a'] [.literal (ch 'a')] (by decide)
    (textMemory_string (by decide) (by decide)) (fun _ => by decide) (by decide)
  obtain rfl := vsprintf_unique ranS ranS'
  obtain rfl := vsprintf_unique ranT ranT'
  obtain rfl := Option.some.inj (here.symm.trans written')
  rw [chars] at nul
  exact absurd nul (by decide)

end RiseOS
