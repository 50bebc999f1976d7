import RiseOS.Serial.Itoa
import RiseOS.Kernel.Stdio

/-! printf of libc: what it emits, what it returns and how far it reads. -/
namespace RiseOS
open Words Strings

/-! ### The rendering -/

/-- The text of a format. From the first unknown conversion on, or a lone % at
the end, the format stands for itself. -/
def printfText (m : Memory) (args : Nat → Nat) : List (BitVec 8) → Nat → List (BitVec 8)
  | [], _ => []
  | c :: rest, k =>
      if c = ch '%' then
        match rest with
        | [] => [c]
        | d :: rest =>
            if d = ch '%' then d :: printfText m args rest k
            else if d = ch 'c' then BitVec.ofNat 8 (args k) :: printfText m args rest (k + 1)
            else if d = ch 's' then
              stringAt (window m (args k)) ++ printfText m args rest (k + 1)
            else c :: d :: rest
      else c :: printfText m args rest k

/-- No %x is met before the first unknown conversion. -/
def NoHex : List (BitVec 8) → Prop
  | [] => True
  | c :: rest =>
      if c = ch '%' then
        match rest with
        | [] => True
        | d :: rest =>
            d ≠ ch 'x' ∧ (d = ch '%' ∨ d = ch 'c' ∨ d = ch 's' → NoHex rest)
      else NoHex rest

section Text

variable (m : Memory) (args : Nat → Nat)

theorem printfText_literal {c : BitVec 8} (plain : c ≠ ch '%') (rest : List (BitVec 8)) (k : Nat) :
    printfText m args (c :: rest) k = c :: printfText m args rest k := by
  rw [printfText.eq_def]
  exact if_neg plain

theorem printfText_percent (d : BitVec 8) (rest : List (BitVec 8)) (k : Nat) :
    printfText m args (ch '%' :: d :: rest) k =
      if d = ch '%' then d :: printfText m args rest k
      else if d = ch 'c' then BitVec.ofNat 8 (args k) :: printfText m args rest (k + 1)
      else if d = ch 's' then stringAt (window m (args k)) ++ printfText m args rest (k + 1)
      else ch '%' :: d :: rest := by
  rw [printfText.eq_def]
  exact if_pos rfl

theorem noHex_literal {c : BitVec 8} (plain : c ≠ ch '%') (rest : List (BitVec 8)) :
    NoHex (c :: rest) ↔ NoHex rest := by
  rw [NoHex.eq_def]
  exact iff_of_eq (if_neg plain)

theorem noHex_percent (d : BitVec 8) (rest : List (BitVec 8)) : NoHex (ch '%' :: d :: rest) ↔
    d ≠ ch 'x' ∧ (d = ch '%' ∨ d = ch 'c' ∨ d = ch 's' → NoHex rest) := by
  rw [NoHex.eq_def]
  exact iff_of_eq (if_pos rfl)

/-- The literal run at the head of a format, up to the next %. -/
def literalRun (bs : List (BitVec 8)) : List (BitVec 8) := bs.takeWhile (fun c => c ≠ ch '%')
def afterRun (bs : List (BitVec 8)) : List (BitVec 8) := bs.dropWhile (fun c => c ≠ ch '%')

theorem run_split (bs : List (BitVec 8)) : literalRun bs ++ afterRun bs = bs :=
  List.takeWhile_append_dropWhile

theorem printfText_run (bs : List (BitVec 8)) (k : Nat) :
    printfText m args bs k = literalRun bs ++ printfText m args (afterRun bs) k := by
  induction bs with
  | nil => rfl
  | cons c rest ih =>
    unfold literalRun afterRun
    by_cases plain : c = ch '%'
    · simp [plain]
    · rw [printfText_literal m args plain, ih]
      simp [plain, literalRun, afterRun]

theorem noHex_run (bs : List (BitVec 8)) : NoHex bs ↔ NoHex (afterRun bs) := by
  induction bs with
  | nil => exact Iff.rfl
  | cons c rest ih =>
    unfold afterRun
    by_cases plain : c = ch '%'
    · simp [plain]
    · rw [noHex_literal plain, ih]
      simp [plain, afterRun]

end Text

/-! ### One piece -/

@[simp] theorem look_format (s : Printf) (k : Nat) : (s.look k).format = s.format := rfl
@[simp] theorem look_arg (s : Printf) (k : Nat) : (s.look k).arg = s.arg := rfl

theorem cstring_window_append {m : Memory} {a : Nat} {first rest : List (BitVec 8)}
    (string : CString (window m a) (first ++ rest)) :
    CString (window m (a + first.length)) rest := by
  induction first generalizing a with
  | nil => exact string
  | cons c first ih =>
    have later := ih ((cstring_window_cons m a c (first ++ rest)).mp string).2.2
    rwa [List.length_cons, Nat.add_comm first.length 1, ← Nat.add_assoc]

theorem runLength_eq {t : Nat → BitVec 8} (rest : List (BitVec 8)) (fuel amount : Nat)
    (string : CString (fun k => t (amount + k)) rest) (enough : rest.length < fuel) :
    runLength t fuel amount = some (amount + (literalRun rest).length) := by
  induction rest generalizing fuel amount with
  | nil =>
    obtain ⟨fuel, rfl⟩ : ∃ f, fuel = f + 1 := ⟨fuel - 1, by omega⟩
    have nul : t amount = 0#8 := string.nul
    rw [runLength, if_neg fun h => h.1 nul]
    rfl
  | cons c rest ih =>
    obtain ⟨fuel, rfl⟩ : ∃ f, fuel = f + 1 := ⟨fuel - 1, by omega⟩
    obtain ⟨byte, nonzero, later⟩ := cstring_from_cons string
    rw [List.length_cons] at enough
    rw [runLength, byte]
    by_cases plain : c = ch '%'
    · rw [if_neg fun h => h.2 plain]
      simp [literalRun, plain]
    · rw [if_pos ⟨nonzero, plain⟩, ih fuel (amount + 1) later (by omega)]
      simp [literalRun, plain]
      omega

theorem terminalWrite_cons (s : Tty) (c : BitVec 8) (rest : List (BitVec 8)) :
    s.terminalWrite (c :: rest) = (s.terminalWrite [c]).terminalWrite rest := rfl

/-- A text has gone out; nothing else has changed. -/
def Printf.emit (s : Printf) (text : List (BitVec 8)) : Printf :=
  { s with emitted := s.emitted ++ text, tty := s.tty.terminalWrite text }

/-- putchar returns a byte, which is never EOF. -/
theorem printFrom_eq (data : Nat → BitVec 8) (text : List (BitVec 8)) (i : Nat) (s : Printf)
    (bytes : ∀ k (inside : k < text.length), data (i + k) = text[k]) :
    s.printFrom data text.length i = (s.emit text, true) := by
  induction text generalizing i s with
  | nil =>
    simp [Printf.printFrom, Printf.emit, Tty.terminalWrite]
  | cons c rest ih =>
    have first : data i = c := bytes 0 (Nat.succ_pos _)
    have byte : BitVec.ofInt 8 (c.toNat : Int) = c := by
      rw [BitVec.ofInt_natCast, BitVec.ofNat_toNat, BitVec.setWidth_eq]
    have noEof : ¬ ((c.toNat : Int) = eof) := by
      unfold eof
      omega
    rw [List.length_cons, Printf.printFrom, first]
    simp only [Printf.putchar]
    rw [ih (i + 1) _ fun k inside => ?_]
    · simp only [if_neg noEof, Printf.emit, Tty.putchar, byte, List.append_assoc,
        List.singleton_append, terminalWrite_cons s.tty c rest]
    · have shifted := bytes (k + 1) (Nat.succ_lt_succ inside)
      rw [Nat.add_assoc, Nat.add_comm 1 k]
      exact shifted

theorem printCounted_eq (s : Printf) (data : Nat → BitVec 8) (text : List (BitVec 8))
    (bytes : ∀ k (inside : k < text.length), data k = text[k]) (bounded : s.written ≤ intMax) :
    s.printCounted data text.length =
      if s.written + text.length ≤ intMax then
        ({ s.emit text with written := s.written + text.length }, true)
      else (s, false) := by
  have printed : s.print data text.length = (s.emit text, true) :=
    printFrom_eq data text 0 s fun k inside => by rw [Nat.zero_add]; exact bytes k inside
  unfold Printf.printCounted
  dsimp only
  by_cases fits : s.written + text.length ≤ intMax
  · rw [if_pos fits, if_neg (by omega), printed]
    rfl
  · rw [if_neg fits, if_pos (by omega)]

/-- The two ways on from a piece. -/
theorem counted_step (s : Printf) (data : Nat → BitVec 8) (text : List (BitVec 8))
    (bytes : ∀ k (inside : k < text.length), data k = text[k]) (bounded : s.written ≤ intMax)
    (on : Printf → Option (Int × Printf)) :
    (if (s.printCounted data text.length).2 then on (s.printCounted data text.length).1
      else some (-1, (s.printCounted data text.length).1)) =
      if s.written + text.length ≤ intMax then
        on { s.emit text with written := s.written + text.length }
      else some (-1, s) := by
  rw [printCounted_eq s data text bytes bounded]
  by_cases fits : s.written + text.length ≤ intMax
  · rw [if_pos fits, if_pos fits]
    rfl
  · rw [if_neg fits, if_neg fits]
    rfl

theorem cstring_prefix {t : Nat → BitVec 8} {first rest : List (BitVec 8)}
    (string : CString t (first ++ rest)) :
    ∀ k (inside : k < first.length), t k = first[k] := by
  intro k inside
  have longer : k < (first ++ rest).length := by
    rw [List.length_append]
    omega
  rw [string.chars k longer, List.getElem_append_left inside]

/-- A run that begins with `c`, as the inner loop measures it. -/
theorem run_piece {m : Memory} {a : Nat} {c : BitVec 8} {rest : List (BitVec 8)}
    (string : CString (window m a) (c :: rest)) :
    runLength (window m a) stringFuel 1 = some (c :: literalRun rest).length ∧
      (∀ k (inside : k < (c :: literalRun rest).length),
        window m a k = (c :: literalRun rest)[k]) ∧
      CString (window m (a + (c :: literalRun rest).length)) (afterRun rest) := by
  have short := cstring_window_lt string
  have later := ((cstring_window_cons m a c rest).mp string).2.2
  have shifted : (fun k => window m a (1 + k)) = window m (a + 1) := by
    rw [← window_succ]
    funext k
    rw [Nat.add_comm]
  have split : (c :: literalRun rest) ++ afterRun rest = c :: rest :=
    congrArg (c :: ·) (run_split rest)
  rw [← split] at string
  refine ⟨?_, cstring_prefix string, cstring_window_append string⟩
  rw [List.length_cons] at short
  rw [runLength_eq rest stringFuel 1 (shifted.symm ▸ later) (by unfold stringFuel; omega),
    List.length_cons, Nat.add_comm]

/-! ### The loop -/

section Loop

variable (m : Memory) (format : Nat) (args : Nat → Nat)

/-- The loop renders `bs` from `s` on, or finds that the count would pass INT_MAX. -/
def Renders (s : Printf) (bs : List (BitVec 8)) : Prop :=
  ∃ fuel v t, printfLoop m format args fuel s = some (v, t) ∧
    t.read ≤ max s.read (s.format + bs.length + 1) ∧
    (s.written + (printfText m args bs s.arg).length ≤ intMax →
      v = (s.written + (printfText m args bs s.arg).length : Nat) ∧
      t.emitted = s.emitted ++ printfText m args bs s.arg ∧
      t.tty = s.tty.terminalWrite (printfText m args bs s.arg)) ∧
    (intMax < s.written + (printfText m args bs s.arg).length → v = -1)

/-- `piece` is out and counted, and the format goes on at `place`. -/
def Printf.sent (u : Printf) (piece : List (BitVec 8)) (place : Nat) : Printf :=
  ⟨place, u.written + piece.length, u.arg, u.read, u.emitted ++ piece, u.tty.terminalWrite piece⟩

/-- One turn of the loop from `s` prints `piece` at `u`, or returns -1 there. -/
def Prints (s u : Printf) (piece : List (BitVec 8)) (place : Nat) : Prop :=
  ∀ fuel, printfLoop m format args (fuel + 1) s =
    if u.written + piece.length ≤ intMax then printfLoop m format args fuel (u.sent piece place)
    else some (-1, u)

/-- The state behind a %. -/
def Printf.behind (s : Printf) : Printf := { (s.look 0).look 1 with format := s.format + 1 }

theorem terminalWrite_append (s : Tty) (first second : List (BitVec 8)) :
    s.terminalWrite (first ++ second) = (s.terminalWrite first).terminalWrite second := by
  induction first generalizing s with
  | nil => rfl
  | cons c first ih =>
    rw [List.cons_append, terminalWrite_cons, ih, terminalWrite_cons s c first]

variable {m format args}

/-- A piece that does not fit ends the loop; after one that does the rest follows. -/
theorem renders_piece {s u : Printf} {bs piece rest : List (BitVec 8)} {place : Nat}
    (prints : Prints m format args s u piece place)
    (same : u.written = s.written ∧ u.emitted = s.emitted ∧ u.tty = s.tty)
    (text : printfText m args bs s.arg = piece ++ printfText m args rest u.arg)
    (inside : place + rest.length = s.format + bs.length)
    (near : u.read ≤ max s.read (s.format + bs.length + 1))
    (next : u.written + piece.length ≤ intMax → Renders m format args (u.sent piece place) rest) :
    Renders m format args s bs := by
  obtain ⟨written, emitted, tty⟩ := same
  have length : s.written + (printfText m args bs s.arg).length =
      u.written + piece.length + (printfText m args rest u.arg).length := by
    rw [text, List.length_append, Nat.add_assoc, written]
  by_cases fits : u.written + piece.length ≤ intMax
  · obtain ⟨fuel, v, t, ran, below, shown, overflow⟩ := next fits
    have go := prints fuel
    rw [if_pos fits, ran] at go
    have reach : t.read ≤ max u.read (place + rest.length + 1) := below
    refine ⟨fuel + 1, v, t, go, by omega, fun enough => ?_, fun long => ?_⟩
    · rw [length] at enough ⊢
      obtain ⟨value, emitted', tty'⟩ := shown enough
      refine ⟨value, ?_, ?_⟩
      · rw [emitted', text, ← List.append_assoc, ← emitted]
        rfl
      · rw [tty', text, terminalWrite_append, ← tty]
        rfl
    · rw [length] at long
      exact overflow long
  · have stop := prints 0
    rw [if_neg fits] at stop
    exact ⟨1, -1, u, stop, near, fun enough => absurd enough (by omega), fun _ => rfl⟩

theorem renders_nil {s : Printf} (nul : window m format s.format = 0#8)
    (bounded : s.written ≤ intMax) : Renders m format args s [] := by
  refine ⟨1, s.written, s.look 0, ?_, Nat.le_refl _, fun _ => ⟨rfl, ?_, rfl⟩, fun long => ?_⟩
  · rw [printfLoop]
    exact if_pos nul
  · exact (List.append_nil _).symm
  · exact absurd long (Nat.not_lt.mpr bounded)

/-! ### The branches -/

theorem prints_literal {s : Printf} {c : BitVec 8} {rest : List (BitVec 8)}
    (string : CString (window m (format + s.format)) (c :: rest)) (plain : c ≠ ch '%')
    (bounded : s.written ≤ intMax) :
    Prints m format args s ((s.look 0).look (c :: literalRun rest).length) (c :: literalRun rest)
      (s.format + (c :: literalRun rest).length) := by
  intro fuel
  obtain ⟨run, bytes, -⟩ := run_piece string
  obtain ⟨first, nonzero, -⟩ := (cstring_window_cons m _ c rest).mp string
  have byte : window m format s.format = c := first
  simp only [printfLoop, look_format, byte, nonzero, plain, not_false_eq_true, true_or, if_true,
    if_false, run, Option.bind_some]
  exact counted_step ((s.look 0).look (c :: literalRun rest).length) _ _ bytes bounded
    fun t => printfLoop m format args fuel
      { t with format := t.format + (c :: literalRun rest).length }

theorem prints_escaped {s : Printf} {rest : List (BitVec 8)}
    (string : CString (window m (format + s.format)) (ch '%' :: ch '%' :: rest))
    (bounded : s.written ≤ intMax) :
    Prints m format args s (s.behind.look (ch '%' :: literalRun rest).length)
      (ch '%' :: literalRun rest) (s.format + 1 + (ch '%' :: literalRun rest).length) := by
  intro fuel
  obtain ⟨first, nonzero, later⟩ := (cstring_window_cons m _ _ _).mp string
  have byte : window m format s.format = ch '%' := first
  have second : window m format (s.format + 1) = ch '%' :=
    ((cstring_window_cons m _ _ _).mp later).1
  obtain ⟨run, bytes, -⟩ := run_piece later
  have run' : runLength (window m (format + (s.format + 1))) stringFuel 1 =
    some (ch '%' :: literalRun rest).length := run
  simp only [printfLoop, look_format, byte, nonzero, second, or_true, if_true, if_false, run',
    Option.bind_some]
  exact counted_step (s.behind.look (ch '%' :: literalRun rest).length) _ _ bytes bounded
    fun t => printfLoop m format args fuel
      { t with format := t.format + (ch '%' :: literalRun rest).length }

/-- The state behind a conversion that takes an argument. -/
def Printf.taken (s : Printf) : Printf :=
  { s.behind.look 0 with format := s.format + 2, arg := s.arg + 1 }

theorem prints_char {s : Printf} (first : window m format s.format = ch '%')
    (second : window m format (s.format + 1) = ch 'c') (bounded : s.written ≤ intMax) :
    Prints m format args s s.taken [BitVec.ofNat 8 (args s.arg)] (s.format + 2) := by
  intro fuel
  have nonzero : ¬ (ch '%' = 0#8) := by decide
  have letter : ¬ (ch 'c' = ch '%') := by decide
  simp only [printfLoop, look_format, first, nonzero, second, letter, not_true_eq_false, or_self,
    if_true, if_false]
  exact counted_step s.taken (fun _ => BitVec.ofNat 8 (args s.arg)) [BitVec.ofNat 8 (args s.arg)]
    (fun k inside => by rw [List.getElem_singleton]) bounded (printfLoop m format args fuel)

theorem prints_string {s : Printf} (first : window m format s.format = ch '%')
    (second : window m format (s.format + 1) = ch 's') {text : List (BitVec 8)}
    (string : CString (window m (args s.arg)) text) (bounded : s.written ≤ intMax) :
    Prints m format args s s.taken text (s.format + 2) := by
  intro fuel
  have nonzero : ¬ (ch '%' = 0#8) := by decide
  have letter : ¬ (ch 's' = ch '%') := by decide
  have other : ¬ (ch 's' = ch 'c') := by decide
  simp only [printfLoop, look_format, look_arg, first, nonzero, second, letter, other,
    not_true_eq_false, or_self, if_true, if_false, strlen_eq string (cstring_window_lt string),
    Option.bind_some]
  exact counted_step s.taken _ text string.chars bounded (printfLoop m format args fuel)

/-- The format pointer goes back to the %. -/
def Printf.back (s : Printf) : Printf := { s.behind.look 0 with format := s.format }

theorem prints_rest {s : Printf} {bs : List (BitVec 8)} {d : BitVec 8}
    (string : CString (window m (format + s.format)) bs)
    (first : window m format s.format = ch '%') (second : window m format (s.format + 1) = d)
    (unknown : d ≠ ch '%' ∧ d ≠ ch 'c' ∧ d ≠ ch 's' ∧ d ≠ ch 'x') (bounded : s.written ≤ intMax) :
    Prints m format args s (s.back.look bs.length) bs (s.format + bs.length) := by
  intro fuel
  obtain ⟨percent, char, str, hex⟩ := unknown
  have nonzero : ¬ (ch '%' = 0#8) := by decide
  simp only [printfLoop, look_format, first, nonzero, second, percent, char, str, hex,
    not_true_eq_false, or_self, if_true, if_false, strlen_eq string (cstring_window_lt string),
    Option.bind_some]
  exact counted_step (s.back.look bs.length) _ bs string.chars bounded
    fun t => printfLoop m format args fuel { t with format := t.format + bs.length }

/-! ### The whole format -/

theorem run_length (bs : List (BitVec 8)) :
    (literalRun bs).length + (afterRun bs).length = bs.length := by
  rw [← List.length_append, run_split]

theorem renders_literal {s : Printf} {c : BitVec 8} {rest : List (BitVec 8)}
    (string : CString (window m (format + s.format)) (c :: rest)) (plain : c ≠ ch '%')
    (bounded : s.written ≤ intMax)
    (next : ∀ t : Printf, CString (window m (format + t.format)) (afterRun rest) →
      t.written ≤ intMax → Renders m format args t (afterRun rest)) :
    Renders m format args s (c :: rest) := by
  obtain ⟨-, -, later⟩ := run_piece string
  have whole := run_length rest
  refine renders_piece (prints_literal string plain bounded) ⟨rfl, rfl, rfl⟩ ?_
    ?_ ?_ fun fits => next _ ?_ fits
  · rw [printfText_literal m args plain, printfText_run]
    rfl
  · simp only [List.length_cons]
    omega
  · simp only [Printf.look, List.length_cons]
    omega
  · rw [Nat.add_assoc] at later
    exact later

theorem renders_escaped {s : Printf} {rest : List (BitVec 8)}
    (string : CString (window m (format + s.format)) (ch '%' :: ch '%' :: rest))
    (bounded : s.written ≤ intMax)
    (next : ∀ t : Printf, CString (window m (format + t.format)) (afterRun rest) →
      t.written ≤ intMax → Renders m format args t (afterRun rest)) :
    Renders m format args s (ch '%' :: ch '%' :: rest) := by
  obtain ⟨-, -, later⟩ := run_piece ((cstring_window_cons m _ _ _).mp string).2.2
  have whole := run_length rest
  refine renders_piece (prints_escaped string bounded) ⟨rfl, rfl, rfl⟩ ?_
    ?_ ?_ fun fits => next _ ?_ fits
  · rw [printfText_percent, if_pos rfl, printfText_run]
    rfl
  · simp only [List.length_cons]
    omega
  · simp only [Printf.look, Printf.behind, List.length_cons]
    omega
  · have place : format + s.format + 1 + (ch '%' :: literalRun rest).length =
        format + (s.format + 1 + (ch '%' :: literalRun rest).length) := by omega
    exact place ▸ later

/-- %c and %s. -/
theorem renders_argument {s : Printf} {d : BitVec 8} {rest piece : List (BitVec 8)}
    (string : CString (window m (format + s.format)) (ch '%' :: d :: rest))
    (prints : Prints m format args s s.taken piece (s.format + 2))
    (text : printfText m args (ch '%' :: d :: rest) s.arg =
      piece ++ printfText m args rest (s.arg + 1))
    (next : ∀ t : Printf, CString (window m (format + t.format)) rest →
      t.written ≤ intMax → Renders m format args t rest) :
    Renders m format args s (ch '%' :: d :: rest) := by
  have pair : CString (window m (format + s.format)) ([ch '%', d] ++ rest) := string
  have later : CString (window m (format + s.format + 2)) rest := cstring_window_append pair
  refine renders_piece prints ⟨rfl, rfl, rfl⟩ text ?_ ?_ fun fits => next _ ?_ fits
  · simp only [List.length_cons]
    omega
  · simp only [Printf.taken, Printf.behind, Printf.look, List.length_cons]
    omega
  · rw [Nat.add_assoc] at later
    exact later

theorem renders_rest {s : Printf} {bs : List (BitVec 8)} {d : BitVec 8}
    (string : CString (window m (format + s.format)) bs)
    (first : window m format s.format = ch '%') (second : window m format (s.format + 1) = d)
    (unknown : d ≠ ch '%' ∧ d ≠ ch 'c' ∧ d ≠ ch 's' ∧ d ≠ ch 'x') (bounded : s.written ≤ intMax)
    (some : 0 < bs.length) (text : ∀ k, printfText m args bs k = bs) :
    Renders m format args s bs := by
  have verbatim : printfText m args bs s.arg = bs ++ printfText m args [] s.arg := by
    rw [text]
    exact (List.append_nil bs).symm
  refine renders_piece (prints_rest string first second unknown bounded)
    ⟨rfl, rfl, rfl⟩ verbatim rfl ?_ fun fits => renders_nil ?_ fits
  · simp only [Printf.back, Printf.behind, Printf.look]
    omega
  · have nul := string.nul
    rw [window, Nat.add_assoc] at nul
    exact nul

theorem printfLoop_renders (ends : ∃ z, m (wrap z) = 0#8) (bs : List (BitVec 8)) (s : Printf)
    (string : CString (window m (format + s.format)) bs) (noHex : NoHex bs)
    (bounded : s.written ≤ intMax) : Renders m format args s bs := by
  generalize size : bs.length = n
  induction n using Nat.strongRecOn generalizing bs s with
  | ind n ih =>
    subst size
    cases bs with
    | nil => exact renders_nil string.nul bounded
    | cons c rest =>
      have whole := run_length rest
      have byte : window m format s.format = c := ((cstring_window_cons m _ c rest).mp string).1
      have later := ((cstring_window_cons m _ c rest).mp string).2.2
      by_cases plain : c = ch '%'
      · subst plain
        cases rest with
        | nil =>
          have nul : window m format (s.format + 1) = 0#8 := later.nul
          exact renders_rest string byte nul (by decide) bounded (Nat.succ_pos _) fun _ => rfl
        | cons d rest =>
          have second : window m format (s.format + 1) = d :=
            ((cstring_window_cons m _ d rest).mp later).1
          obtain ⟨hex, more⟩ := (noHex_percent d rest).mp noHex
          have shorter : rest.length < (ch '%' :: d :: rest).length := by
            rw [List.length_cons, List.length_cons]
            omega
          by_cases percent : d = ch '%'
          · subst percent
            refine renders_escaped string bounded fun t string' bounded' => ?_
            have run := run_length rest
            exact ih _ (by omega) _ t string' ((noHex_run rest).mp (more (.inl rfl))) bounded' rfl
          · by_cases char : d = ch 'c'
            · subst char
              refine renders_argument string (prints_char byte second bounded) ?_
                fun t string' bounded' =>
                  ih _ shorter rest t string' (more (.inr (.inl rfl))) bounded' rfl
              rw [printfText_percent, if_neg percent, if_pos rfl]
              rfl
            · by_cases str : d = ch 's'
              · subst str
                obtain ⟨z, nul⟩ := ends
                have text := (stringAt_cstring (window_ends nul (args s.arg))).1
                refine renders_argument string (prints_string byte second text bounded) ?_
                  fun t string' bounded' =>
                    ih _ shorter rest t string' (more (.inr (.inr rfl))) bounded' rfl
                rw [printfText_percent, if_neg percent, if_neg char, if_pos rfl]
              · refine renders_rest string byte second ⟨percent, char, str, hex⟩ bounded
                  (Nat.succ_pos _) fun k => ?_
                rw [printfText_percent, if_neg percent, if_neg char, if_neg str]
      · refine renders_literal string plain bounded fun t string' bounded' => ?_
        exact ih _ (by rw [List.length_cons]; omega) _ t string'
          ((noHex_run rest).mp ((noHex_literal plain rest).mp noHex)) bounded' rfl

end Loop

/-- printf returns without reading past the NUL of its format. What fits an int is
emitted as rendered and counted; a longer rendering makes it return -1. -/
theorem printf_renders (m : Memory) (format : Nat) (args : Nat → Nat) (tty : Tty)
    (bs : List (BitVec 8)) (string : CString (window m format) bs) (noHex : NoHex bs) :
    ∃ fuel v t, printf fuel m format args tty = some (v, t) ∧ t.read ≤ bs.length + 1 ∧
      ((printfText m args bs 0).length ≤ intMax →
        t.emitted = printfText m args bs 0 ∧ v = t.emitted.length ∧
        t.tty = tty.terminalWrite (printfText m args bs 0)) ∧
      (intMax < (printfText m args bs 0).length → v = -1) := by
  obtain ⟨fuel, v, t, ran, near, shown, overflow⟩ : Renders m format args ⟨0, 0, 0, 0, [], tty⟩ bs :=
    printfLoop_renders (string_ends string) bs _ string noHex (Nat.zero_le _)
  simp only [Nat.zero_add, List.nil_append, Nat.zero_max] at near shown overflow
  refine ⟨fuel, v, t, ran, near, fun fits => ?_, overflow⟩
  obtain ⟨value, emitted, written⟩ := shown fits
  exact ⟨emitted, emitted ▸ value, written⟩

/-- "%c%%" and the letter A. -/
theorem letter_and_percent_printed : ∃ fuel v t,
    printf fuel (textMemory [ch '%', ch 'c', ch '%', ch '%']) 0 (fun _ => 65)
      ⟨0, 0, 7, fun _ => 0, []⟩ = some (v, t) ∧ t.emitted = [ch 'A', ch '%'] ∧ v = 2 := by
  have string : CString (window (textMemory [ch '%', ch 'c', ch '%', ch '%']) 0)
      [ch '%', ch 'c', ch '%', ch '%'] := textMemory_string (by decide) (by decide)
  obtain ⟨fuel, v, t, ran, -, shown, -⟩ := printf_renders _ 0 (fun _ => 65)
    ⟨0, 0, 7, fun _ => 0, []⟩ _ string (by simp [NoHex, ch])
  have text : printfText (textMemory [ch '%', ch 'c', ch '%', ch '%']) (fun _ => 65)
      [ch '%', ch 'c', ch '%', ch '%'] 0 = [ch 'A', ch '%'] := by
    simp [printfText, ch]
  rw [text] at shown
  obtain ⟨emitted, value, -⟩ := shown (by decide)
  exact ⟨fuel, v, t, ran, emitted, by rw [value, emitted]; rfl⟩

end RiseOS
