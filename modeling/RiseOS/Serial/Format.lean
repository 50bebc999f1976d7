import RiseOS.Serial.Itoa

/-! vsprintf over a whole format: the text it renders, the two sinks, and how far
it reads. -/
namespace RiseOS
open Words Strings Numerals

/-! ### Formats and their text -/

inductive Item where
  | literal (c : BitVec 8)
  | conversion (c : BitVec 8)
  deriving DecidableEq

def Item.bytes : Item → List (BitVec 8)
  | .literal c => [c]
  | .conversion c => [ch '%', c]

/-- The items of a format, `none` if its last character is a lone %. -/
def parse : List (BitVec 8) → Option (List Item)
  | [] => some []
  | c :: rest =>
      if c = ch '%' then
        match rest with
        | [] => none
        | d :: rest => (parse rest).map (fun items => .conversion d :: items)
      else (parse rest).map (fun items => .literal c :: items)

def intNumeral (i : Int) : List (BitVec 8) :=
  if i < 0 then ch '-' :: numeral 10 i.natAbs else numeral 10 i.natAbs

/-- What the conversion `c` makes of the word `arg`. A zero after the % is the
conversion %x under another name; an unknown letter renders nothing. -/
def conversionText (m : Memory) (c : BitVec 8) (arg : Nat) : List (BitVec 8) :=
  if c = ch 'd' then intNumeral (signed arg)
  else if c = ch 'u' then numeral 10 arg
  else if c = ch '0' ∨ c = ch 'x' ∨ c = ch 'p' then numeral 16 arg
  else if c = ch 'c' then [BitVec.ofNat 8 arg]
  else if c = ch 's' then stringAt (window m arg)
  else []

/-- The conversion copies a string with its NUL. -/
def copies (c : BitVec 8) : Bool :=
  c = ch '0' ∨ c = ch 'd' ∨ c = ch 'u' ∨ c = ch 'x' ∨ c = ch 'p' ∨ c = ch 's'

def takesArg (c : BitVec 8) : Bool := copies c ∨ c = ch 'c'

def itemsText (m : Memory) (args : Nat → Nat) : List Item → Nat → List (BitVec 8)
  | [], _ => []
  | .literal c :: rest, k => c :: itemsText m args rest k
  | .conversion c :: rest, k =>
      conversionText m c (args k) ++ itemsText m args rest (if takesArg c then k + 1 else k)

def Item.writes : Item → Bool
  | .literal _ => true
  | .conversion c => takesArg c

def Item.copied : Item → Bool
  | .literal _ => false
  | .conversion c => copies c

/-- The last item that writes anything copies a string. -/
def endsCopied (items : List Item) : Bool :=
  ((items.filter Item.writes).getLast?.map Item.copied).getD false

/-! ### Output -/

/-- The output has grown by `text`; in a buffer `nul` stands behind it. -/
structure Emits (s t : Sprintf) (text nul : List (BitVec 8)) : Prop where
  str : t.str = s.str.map fun str => overlay str s.pos (text ++ nul)
  pos : t.pos = if s.str.isSome then s.pos + text.length else s.pos
  chars : t.chars = if s.str.isSome then s.chars else s.chars ++ text

/-- A buffer has room for `n` more characters and a NUL. -/
def Room (s : Sprintf) (n : Nat) : Prop := s.str.isSome → s.pos + n < 2 ^ 32

theorem Emits.refl (s : Sprintf) : Emits s s [] [] := by
  refine ⟨?_, by simp, by simp⟩
  simp [overlay_nil]

theorem Emits.trans {s t u : Sprintf} {first nul second last : List (BitVec 8)}
    (one : Emits s t first nul) (two : Emits t u second last)
    (covered : nul.length ≤ (second ++ last).length) : Emits s u (first ++ second) last := by
  cases h : s.str with
  | none =>
    have none' : t.str = none := by rw [one.str, h, Option.map_none]
    refine ⟨?_, ?_, ?_⟩
    · rw [two.str, none', h, Option.map_none]
      rfl
    · rw [two.pos, one.pos, none', h]
      rfl
    · rw [two.chars, one.chars, none', h]
      simp
  | some str =>
    have some' : t.str = some (overlay str s.pos (first ++ nul)) := by
      rw [one.str, h, Option.map_some]
    have moved : t.pos = s.pos + first.length := by
      rw [one.pos, h]
      rfl
    refine ⟨?_, ?_, ?_⟩
    · rw [two.str, some', h, Option.map_some, Option.map_some, moved,
        overlay_overlay str s.pos first nul (second ++ last) covered, List.append_assoc]
    · rw [two.pos, moved, some', h, List.length_append]
      simp [Nat.add_assoc]
    · rw [two.chars, one.chars, some', h]
      rfl

theorem Emits.silent {s t u : Sprintf} {text nul : List (BitVec 8)} (one : Emits s t text nul)
    (two : Emits t u [] []) : Emits s u text nul := by
  have same : u.str = t.str := by
    rw [two.str]
    simp [overlay_nil]
  refine ⟨same.trans one.str, ?_, ?_⟩
  · rw [two.pos, one.pos]
    simp
  · rw [two.chars, one.chars]
    simp

theorem Room.less {s : Sprintf} {m n : Nat} (room : Room s n) (less : m ≤ n) : Room s m := by
  intro some
  have space := room some
  omega

theorem Emits.room {s t : Sprintf} {text nul : List (BitVec 8)} {n : Nat}
    (emits : Emits s t text nul) (room : Room s (text.length + n)) : Room t n := by
  intro some
  have before : s.str.isSome := by
    rw [emits.str] at some
    simpa using some
  have space := room before
  rw [emits.pos, if_pos before]
  omega

theorem put_emits {s : Sprintf} (c : BitVec 8) (room : Room s 1) : Emits s (s.put c) [c] [] := by
  unfold Sprintf.put
  split
  · rename_i str h
    have space := room (by rw [h]; rfl)
    refine ⟨?_, ?_, ?_⟩
    · rw [h, Option.map_some, List.append_nil, overlay_single]
    · rw [h]
      exact wrap_eq space
    · rw [h]
      rfl
  · rename_i h
    refine ⟨?_, ?_, ?_⟩
    · rw [h, Option.map_none]
      exact h
    · rw [h]
      rfl
    · rw [h]
      rfl

theorem put_rest (s : Sprintf) (c : BitVec 8) :
    (s.put c).format = s.format ∧ (s.put c).arg = s.arg := by
  unfold Sprintf.put
  split <;> exact ⟨rfl, rfl⟩

theorem putString_spec {t : Nat → BitVec 8} {text : List (BitVec 8)} (string : CString t text)
    (short : text.length < 2 ^ 32) (s : Sprintf) :
    ∃ u, s.putString t = some u ∧ u.format = s.format ∧ u.arg = s.arg ∧
      (Room s text.length → Emits s u text [0#8]) := by
  unfold Sprintf.putString
  split
  · rename_i str h
    obtain ⟨copied, ran, laid⟩ := strcpy_eq string short str s.pos
    rw [ran, Option.bind_some]
    dsimp only
    rw [strlen_eq string short, Option.map_some]
    refine ⟨_, rfl, rfl, rfl, fun room => ?_⟩
    have space := room (by rw [h]; rfl)
    refine ⟨?_, ?_, ?_⟩
    · rw [h, Option.map_some, laid space]
    · rw [h]
      exact wrap_eq space
    · rw [h]
      rfl
  · rename_i h
    rw [putLoop_eq text stringFuel 0 s (cstring_from_zero string) short]
    refine ⟨_, rfl, rfl, rfl, fun _ => ⟨?_, ?_, ?_⟩⟩
    · rw [h, Option.map_none]
    · rw [h]
      rfl
    · rw [h]
      rfl

/-! ### One conversion -/

/-- The text of the number cases. -/
def numberText (c : BitVec 8) (ival : Nat) : List (BitVec 8) :=
  if c = ch 'd' ∧ signed ival < 0 then ch '-' :: numeral 10 (wsub 0 ival)
  else numeral (if c = ch 'd' ∨ c = ch 'u' then 10 else 16) ival

/-- The buffer after itoa, and the string in it. -/
def Sprintf.rendered (s : Sprintf) (base n : Nat) : Sprintf :=
  { s with buf := overlay s.buf 0 (numeral base n ++ [0#8]) }

theorem rendered_string (s : Sprintf) {base n : Nat} (which : base = 10 ∨ base = 16)
    (word : n < 2 ^ 32) : CString (s.rendered base n).buf (numeral base n) ∧
      (numeral base n).length < 2 ^ 32 := by
  have least : 2 ≤ base := by omega
  refine ⟨cstring_overlay s.buf (numeral_nonzero least n (by omega)), ?_⟩
  have short := lowDigits_length least n (k := 32) (by decide)
    (Nat.lt_of_lt_of_le word (Nat.pow_le_pow_left least 32))
  rw [numeral, List.length_reverse, List.length_map]
  omega

theorem base_cases (c : BitVec 8) : (if c = ch 'd' ∨ c = ch 'u' then 10 else 16) = 10 ∨
    (if c = ch 'd' ∨ c = ch 'u' then 10 else 16) = 16 := by
  split
  · exact .inl rfl
  · exact .inr rfl

section Number

variable (s : Sprintf) (c : BitVec 8) (ival : Nat)

/-- `size` is the length of the numeral, so nothing is padded. -/
theorem number_negative (negative : c = ch 'd' ∧ signed ival < 0) : s.number c ival =
    ((s.rendered 10 (wsub 0 ival)).put (ch '-')).putString (s.rendered 10 (wsub 0 ival)).buf := by
  obtain ⟨string, short⟩ := rendered_string s (n := wsub 0 ival) (.inl rfl) (wrap_lt _)
  obtain ⟨rfl, below⟩ := negative
  unfold Sprintf.rendered at string
  simp only [Sprintf.number, below, and_self, decide_true, true_or, if_true,
    itoa_eq (n := wsub 0 ival) (by decide : 2 ≤ 10) (wrap_lt _), Option.bind_some,
    strlen_eq string short, sizeOverride, Nat.lt_irrefl, and_false, if_false]
  rfl

theorem number_plain (plain : ¬ (c = ch 'd' ∧ signed ival < 0)) (word : ival < 2 ^ 32) {base : Nat}
    (which : base = if c = ch 'd' ∨ c = ch 'u' then 10 else 16) :
    s.number c ival = (s.rendered base ival).putString (s.rendered base ival).buf := by
  have bases : base = 10 ∨ base = 16 := which ▸ base_cases c
  obtain ⟨string, short⟩ := rendered_string s bases word
  have sign : decide (c = ch 'd' ∧ signed ival < 0) = false := decide_eq_false plain
  unfold Sprintf.rendered at string
  simp only [Sprintf.number, sign, Bool.false_eq_true, if_false, ← which,
    itoa_eq (by omega : 2 ≤ base) word, Option.bind_some, strlen_eq string short, sizeOverride,
    if_true, Nat.lt_irrefl, and_false]
  rfl

theorem number_spec (word : ival < 2 ^ 32) :
    ∃ u, s.number c ival = some u ∧ u.format = s.format ∧ u.arg = s.arg ∧
      (Room s (numberText c ival).length → Emits s u (numberText c ival) [0#8]) := by
  unfold numberText
  split
  · rename_i negative
    obtain ⟨string, short⟩ := rendered_string s (n := wsub 0 ival) (.inl rfl) (wrap_lt _)
    obtain ⟨format, arg⟩ := put_rest (s.rendered 10 (wsub 0 ival)) (ch '-')
    obtain ⟨u, ran, format', arg', emits⟩ := putString_spec string short
      ((s.rendered 10 (wsub 0 ival)).put (ch '-'))
    rw [number_negative s c ival negative, ran]
    refine ⟨u, rfl, format'.trans format, arg'.trans arg, fun room => ?_⟩
    rw [List.length_cons, Nat.add_comm] at room
    have minus : Emits s ((s.rendered 10 (wsub 0 ival)).put (ch '-')) [ch '-'] [] := by
      have first := put_emits (s := s.rendered 10 (wsub 0 ival)) (ch '-')
        (room.less (Nat.le_add_right 1 _))
      exact ⟨first.str, first.pos, first.chars⟩
    exact minus.trans (emits (minus.room room)) (Nat.zero_le _)
  · rename_i plain
    obtain ⟨string, short⟩ := rendered_string s (base_cases c) word
    obtain ⟨u, ran, format, arg, emits⟩ := putString_spec string short (s.rendered _ ival)
    rw [number_plain s c ival plain word rfl, ran]
    refine ⟨u, rfl, format, arg, fun room => ?_⟩
    have shown := emits room
    exact ⟨shown.str, shown.pos, shown.chars⟩

end Number

/-- INT_MIN included: its negation is the word 2^31. -/
theorem numberText_signed (arg : Nat) (word : arg < 2 ^ 32) :
    numberText (ch 'd') arg = intNumeral (signed arg) := by
  unfold numberText intNumeral
  by_cases negative : signed arg < 0
  · have magnitude : wsub 0 arg = (signed arg).natAbs := by
      unfold signed wsub wrap at *
      split at negative <;> omega
    rw [if_pos ⟨rfl, negative⟩, if_pos negative, magnitude]
  · have magnitude : arg = (signed arg).natAbs := by
      unfold signed at *
      split at negative <;> omega
    rw [if_neg (fun h => negative h.2), if_neg negative, if_pos (.inl rfl), ← magnitude]

theorem conversionText_number {c : BitVec 8}
    (number : c = ch '0' ∨ c = ch 'd' ∨ c = ch 'u' ∨ c = ch 'x' ∨ c = ch 'p') (m : Memory)
    (arg : Nat) (word : arg < 2 ^ 32) : conversionText m c arg = numberText c arg := by
  rcases number with rfl | rfl | rfl | rfl | rfl
  · rfl
  · exact (numberText_signed arg word).symm
  · rfl
  · rfl
  · rfl

/-- Every conversion returns, takes its argument and writes its text. -/
theorem conversion_spec (s : Sprintf) (m : Memory) (args : Nat → Nat) (c : BitVec 8)
    (words : ∀ k, args k < 2 ^ 32) (ends : ∃ z, m (wrap z) = 0#8) :
    ∃ u, s.conversion m args c = some u ∧ u.format = s.format ∧
      u.arg = (if takesArg c then s.arg + 1 else s.arg) ∧
      (Room s (conversionText m c (args s.arg)).length →
        Emits s u (conversionText m c (args s.arg)) (if copies c then [0#8] else [])) := by
  unfold Sprintf.conversion
  split
  · rename_i number
    have copy : copies c = true := by
      rcases number with rfl | rfl | rfl | rfl | rfl <;> rfl
    obtain ⟨u, ran, format, arg, emits⟩ :=
      number_spec { s with arg := s.arg + 1 } c (args s.arg) (words s.arg)
    rw [conversionText_number number m _ (words s.arg), takesArg, copy]
    refine ⟨u, ran, format, arg, fun room => ?_⟩
    have shown := emits room
    exact ⟨shown.str, shown.pos, shown.chars⟩
  · rename_i letter
    split
    · rename_i here
      subst here
      obtain ⟨format, arg⟩ := put_rest { s with arg := s.arg + 1 } (BitVec.ofNat 8 (args s.arg))
      refine ⟨_, rfl, format, arg, fun room => ?_⟩
      have shown := put_emits (s := { s with arg := s.arg + 1 }) (BitVec.ofNat 8 (args s.arg)) room
      exact ⟨shown.str, shown.pos, shown.chars⟩
    · rename_i other
      split
      · rename_i here
        subst here
        obtain ⟨z, nul⟩ := ends
        obtain ⟨string, short⟩ := stringAt_cstring (window_ends nul (args s.arg))
        obtain ⟨u, ran, format, arg, emits⟩ := putString_spec string short
          { s with arg := s.arg + 1 }
        refine ⟨u, ran, format, arg, fun room => ?_⟩
        have shown := emits room
        exact ⟨shown.str, shown.pos, shown.chars⟩
      · rename_i unknown
        simp only [not_or] at letter
        have silent : copies c = false := by
          simp [copies, letter, unknown]
        have takes : takesArg c = false := by
          simp [takesArg, silent, other]
        have text : conversionText m c (args s.arg) = [] := by
          simp [conversionText, letter, other, unknown]
        rw [silent, takes, text]
        exact ⟨s, rfl, rfl, rfl, fun _ => Emits.refl s⟩

/-! ### Whole formats -/

theorem parse_literal {c : BitVec 8} (plain : c ≠ ch '%') (rest : List (BitVec 8)) :
    parse (c :: rest) = (parse rest).map (fun items => .literal c :: items) := by
  rw [parse.eq_def]
  exact if_neg plain

theorem parse_conversion (d : BitVec 8) (rest : List (BitVec 8)) :
    parse (ch '%' :: d :: rest) = (parse rest).map (fun items => .conversion d :: items) := by
  rw [parse.eq_def]
  exact if_pos rfl

theorem parse_nil {bs : List (BitVec 8)} (parsed : parse bs = some []) : bs = [] := by
  cases bs with
  | nil => rfl
  | cons c rest =>
    unfold parse at parsed
    split at parsed
    · split at parsed
      · cases parsed
      · simp at parsed
    · simp at parsed

theorem parse_cons {bs : List (BitVec 8)} {i : Item} {items : List Item}
    (parsed : parse bs = some (i :: items)) :
    ∃ tail, bs = i.bytes ++ tail ∧ parse tail = some items ∧ i ≠ .literal (ch '%') := by
  cases bs with
  | nil => simp [parse] at parsed
  | cons c rest =>
    unfold parse at parsed
    split at parsed
    · rename_i percent
      split at parsed
      · cases parsed
      · rename_i d tail
        obtain ⟨items', here, same⟩ := Option.map_eq_some_iff.mp parsed
        obtain ⟨rfl, rfl⟩ := List.cons.inj same
        exact ⟨tail, by rw [percent]; rfl, here, by simp⟩
    · rename_i plain
      obtain ⟨items', here, same⟩ := Option.map_eq_some_iff.mp parsed
      obtain ⟨rfl, rfl⟩ := List.cons.inj same
      exact ⟨rest, rfl, here, by simpa using plain⟩

theorem copied_writes {i : Item} (copied : i.copied = true) : i.writes = true := by
  cases i with
  | literal c => rfl
  | conversion c =>
    have copy : copies c = true := copied
    simp [Item.writes, takesArg, copy]

theorem itemsText_silent (m : Memory) (args : Nat → Nat) {items : List Item}
    (silent : items.filter Item.writes = []) (k : Nat) : itemsText m args items k = [] := by
  induction items generalizing k with
  | nil => rfl
  | cons i rest ih =>
    obtain ⟨none, later⟩ : ¬ i.writes = true ∧ rest.filter Item.writes = [] := by
      rw [List.filter_cons] at silent
      split at silent
      · cases silent
      · rename_i none
        exact ⟨none, silent⟩
    cases i with
    | literal c => exact absurd rfl none
    | conversion c =>
      have takes : takesArg c = false := Bool.eq_false_iff.mpr none
      have parts : copies c = false ∧ c ≠ ch 'c' := by simpa [takesArg] using takes
      have text : conversionText m c (args k) = [] := by
        have letters := parts.1
        simp only [copies, decide_eq_false_iff_not, not_or] at letters
        simp [conversionText, letters, parts.2]
      rw [itemsText, text, List.nil_append]
      exact ih later _

theorem endsCopied_cons_silent (i : Item) {rest : List Item}
    (silent : rest.filter Item.writes = []) : endsCopied (i :: rest) = i.copied := by
  unfold endsCopied
  rw [List.filter_cons, silent]
  split
  · rfl
  · rename_i none
    exact (Bool.eq_false_iff.mpr fun copied => none (copied_writes copied)).symm

theorem endsCopied_cons_more (i : Item) {rest : List Item}
    (more : rest.filter Item.writes ≠ []) : endsCopied (i :: rest) = endsCopied rest := by
  unfold endsCopied
  rw [List.filter_cons]
  split
  · rw [List.getLast?_cons_of_ne_nil more]
  · rfl

/-- Behind items that write, a NUL left over before them is gone. -/
theorem written_covers (m : Memory) (args : Nat → Nat) {items : List Item}
    (more : items.filter Item.writes ≠ []) (k : Nat) :
    1 ≤ (itemsText m args items k ++ if endsCopied items then [0#8] else []).length := by
  induction items generalizing k with
  | nil => exact absurd rfl more
  | cons i rest ih =>
    by_cases silent : rest.filter Item.writes = []
    · have writes : i.writes = true := by
        rw [List.filter_cons, silent] at more
        split at more
        · assumption
        · exact absurd rfl more
      rw [endsCopied_cons_silent i silent]
      cases i with
      | literal c => simp [itemsText]
      | conversion c =>
        by_cases copy : copies c = true
        · simp [Item.copied, copy]
        · have here : c = ch 'c' := by simpa [Item.writes, takesArg, copy] using writes
          subst here
          simp [itemsText, conversionText, ch]
    · have later := ih silent
      rw [endsCopied_cons_more i silent]
      cases i with
      | literal c => simp [itemsText]
      | conversion c =>
        have rest' := later (if takesArg c then k + 1 else k)
        rw [itemsText, List.append_assoc, List.length_append]
        omega

theorem emits_item {s t u : Sprintf} {m : Memory} {args : Nat → Nat} {i : Item} {rest : List Item}
    {text : List (BitVec 8)} {k : Nat} (one : Emits s t text (if i.copied then [0#8] else []))
    (two : Emits t u (itemsText m args rest k) (if endsCopied rest then [0#8] else [])) :
    Emits s u (text ++ itemsText m args rest k) (if endsCopied (i :: rest) then [0#8] else []) := by
  by_cases silent : rest.filter Item.writes = []
  · have ends : endsCopied rest = false := by
      unfold endsCopied
      rw [silent]
      rfl
    rw [itemsText_silent m args silent, ends] at two
    rw [itemsText_silent m args silent, endsCopied_cons_silent i silent, List.append_nil]
    exact one.silent two
  · have covers := written_covers m args silent k
    rw [endsCopied_cons_more i silent]
    refine one.trans two (Nat.le_trans ?_ covers)
    split
    · exact Nat.le_refl 1
    · exact Nat.zero_le 1

section Run

variable (m : Memory) (format : Nat) (args : Nat → Nat)

/-- The loop from `s` on reads `bs` to its NUL and writes the text of `items`. -/
def HelperWrites (s : Sprintf) (bs : List (BitVec 8)) (items : List Item) : Prop :=
  ∃ t, vsprintfHelper m format args (items.length + 1) s = some t ∧
    t.format = s.format + bs.length + 1 ∧
    (Room s (itemsText m args items s.arg).length → Emits s t (itemsText m args items s.arg)
      (if endsCopied items then [0#8] else []))

variable {m format args}

theorem helperWrites_nil {s : Sprintf} (nul : window m format s.format = 0#8) :
    HelperWrites m format args s [] [] := by
  refine ⟨{ s with format := s.format + 1 }, ?_, rfl, fun _ => ?_⟩
  · rw [vsprintfHelper]
    dsimp only
    rw [if_pos nul]
  · have same := Emits.refl s
    exact ⟨same.str, same.pos, same.chars⟩

/-- One turn of the loop for the first item, and the rest. -/
theorem helperWrites_cons {s u : Sprintf} {i : Item} {items : List Item}
    {tail : List (BitVec 8)} (piece : List (BitVec 8))
    (turn : ∀ fuel, vsprintfHelper m format args (fuel + 1) s = vsprintfHelper m format args fuel u)
    (text : itemsText m args (i :: items) s.arg = piece ++ itemsText m args items u.arg)
    (moved : u.format = s.format + i.bytes.length)
    (one : Room s piece.length → Emits s u piece (if i.copied then [0#8] else []))
    (later : HelperWrites m format args u tail items) :
    HelperWrites m format args s (i.bytes ++ tail) (i :: items) := by
  obtain ⟨t, ran, read, emits⟩ := later
  refine ⟨t, (turn _).trans ran, ?_, fun room => ?_⟩
  · rw [read, moved, List.length_append, Nat.add_assoc s.format]
  · rw [text, List.length_append] at room
    have first := one (room.less (Nat.le_add_right _ _))
    rw [text]
    exact emits_item first (emits (first.room room))

theorem helperWrites_literal {s : Sprintf} {c : BitVec 8} {items : List Item}
    {tail : List (BitVec 8)} (string : CString (window m (format + s.format)) (c :: tail))
    (plain : c ≠ ch '%')
    (next : ∀ u : Sprintf, CString (window m (format + u.format)) tail →
      HelperWrites m format args u tail items) :
    HelperWrites m format args s (c :: tail) (.literal c :: items) := by
  obtain ⟨first, nonzero, rest⟩ := (cstring_window_cons m _ c tail).mp string
  have byte : window m format s.format = c := first
  obtain ⟨format', arg'⟩ := put_rest { s with format := s.format + 1 } c
  refine helperWrites_cons (i := .literal c) [c] (fun fuel => ?_) ?_ format' (fun room => ?_)
    (next _ ?_)
  · rw [vsprintfHelper]
    dsimp only
    rw [byte, if_neg nonzero, if_neg plain]
  · rw [arg']
    rfl
  · have put := put_emits (s := { s with format := s.format + 1 }) c room
    exact ⟨put.str, put.pos, put.chars⟩
  · rw [format', ← Nat.add_assoc]
    exact rest

theorem helperWrites_conversion (words : ∀ k, args k < 2 ^ 32) (ends : ∃ z, m (wrap z) = 0#8)
    {s : Sprintf} {c : BitVec 8} {items : List Item} {tail : List (BitVec 8)}
    (string : CString (window m (format + s.format)) (ch '%' :: c :: tail))
    (next : ∀ u : Sprintf, CString (window m (format + u.format)) tail →
      HelperWrites m format args u tail items) :
    HelperWrites m format args s (ch '%' :: c :: tail) (.conversion c :: items) := by
  obtain ⟨first, nonzero, behind⟩ := (cstring_window_cons m _ (ch '%') (c :: tail)).mp string
  obtain ⟨second, _, rest⟩ := (cstring_window_cons m _ c tail).mp behind
  have byte : window m format s.format = ch '%' := first
  have letter : window m format (s.format + 1) = c := second
  obtain ⟨u, converted, format', arg', written⟩ :=
    conversion_spec { s with format := s.format + 1 + 1 } m args c words ends
  refine helperWrites_cons (i := .conversion c) (conversionText m c (args s.arg)) (fun fuel => ?_)
    ?_ format' (fun room => ?_) (next u ?_)
  · rw [vsprintfHelper]
    dsimp only
    rw [byte, if_neg nonzero, if_pos rfl, letter, converted, Option.bind_some]
  · rw [arg']
    rfl
  · have shown := written room
    exact ⟨shown.str, shown.pos, shown.chars⟩
  · rw [format', ← Nat.add_assoc]
    exact rest

variable (m format args)

/-- The loop on a format without a lone % at its end. -/
theorem helper_spec (words : ∀ k, args k < 2 ^ 32) (items : List Item) (bs : List (BitVec 8))
    (s : Sprintf) (parsed : parse bs = some items)
    (string : CString (window m (format + s.format)) bs) (ends : ∃ z, m (wrap z) = 0#8) :
    HelperWrites m format args s bs items := by
  induction items generalizing bs s with
  | nil =>
    obtain rfl := parse_nil parsed
    exact helperWrites_nil string.nul
  | cons i items ih =>
    obtain ⟨tail, rfl, later, unescaped⟩ := parse_cons parsed
    cases i with
    | literal c =>
      exact helperWrites_literal string (by simpa using unescaped) fun u => ih tail u later
    | conversion c => exact helperWrites_conversion words ends string fun u => ih tail u later

end Run

end RiseOS
