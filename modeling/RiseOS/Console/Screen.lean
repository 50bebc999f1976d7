import RiseOS.Console.Cursor
import RiseOS.Console.Printf
import RiseOS.Library.Sheet

/-! What the screen shows: the text as it lies on a sheet of 80 columns, as long as it
does not reach the end of the last row. -/
namespace RiseOS
open Words Runs Sheet Strings

/-- A character with its colors. -/
abbrev Ink := BitVec 8 × BitVec 8

/-- The two bytes of a cell as the display takes them. -/
def inkOf (entry : BitVec 16) : Ink := (entry.setWidth 8, (entry >>> 8).setWidth 8)

def Tty.shown (s : Tty) (y x : Nat) : Ink := inkOf (s.buffer (y * vgaWidth + x))

theorem inkOf_vgaEntry (c color : BitVec 8) : inkOf (vgaEntry c color) = (c, color) := by
  unfold inkOf vgaEntry
  refine Prod.ext ?_ ?_
  · apply BitVec.eq_of_getLsbD_eq
    intro i low
    simp [low]
  · apply BitVec.eq_of_getLsbD_eq
    intro i low
    have high : 8 + i < 16 := by omega
    have inside : i < 16 := by omega
    simp [high, inside]
    exact fun _ => low

/-! ### An empty screen -/

/-- The inner loop of terminal_initialize, `n` rounds of it. -/
def Tty.clearRow (s : Tty) (y n : Nat) : Tty :=
  (List.range n).foldl (fun s x => s.terminalPutentryat 32 s.color x y) s

def Tty.clearRows (s : Tty) (n : Nat) : Tty := (List.range n).foldl (fun s y => s.clearRow y vgaWidth) s

theorem clearRow_succ (s : Tty) (y n : Nat) : s.clearRow y (n + 1) =
    (s.clearRow y n).terminalPutentryat 32 (s.clearRow y n).color n y := by
  unfold Tty.clearRow
  rw [List.range_succ, List.foldl_append, List.foldl_cons, List.foldl_nil]

theorem clearRows_succ (s : Tty) (n : Nat) : s.clearRows (n + 1) = (s.clearRows n).clearRow n vgaWidth := by
  unfold Tty.clearRows
  rw [List.range_succ, List.foldl_append, List.foldl_cons, List.foldl_nil]

theorem clearRow_shows (s : Tty) (y : Nat) {n : Nat} (top : y < vgaHeight) (left : n ≤ vgaWidth) :
    (s.clearRow y n).row = s.row ∧ (s.clearRow y n).column = s.column ∧
      (s.clearRow y n).color = s.color ∧ ∀ i, (s.clearRow y n).buffer i =
        if y * 80 ≤ i ∧ i < y * 80 + n then vgaEntry 32 s.color else s.buffer i := by
  unfold vgaHeight at top
  unfold vgaWidth at left
  induction n with
  | zero => exact ⟨rfl, rfl, rfl, fun i => by rw [if_neg (by omega)]; rfl⟩
  | succ n ih =>
    obtain ⟨row, column, color, cells⟩ := ih (by omega)
    rw [clearRow_succ]
    refine ⟨row, column, color, fun i => ?_⟩
    unfold Tty.terminalPutentryat vgaWidth
    dsimp only
    rw [wrap_eq (by omega), Function.update_apply, cells, color]
    by_cases here : i = y * 80 + n
    · rw [if_pos here, if_pos (by omega)]
    · rw [if_neg here]
      by_cases before : y * 80 ≤ i ∧ i < y * 80 + n
      · rw [if_pos before, if_pos (by omega)]
      · rw [if_neg before, if_neg (by omega)]

theorem clearRows_shows (s : Tty) {n : Nat} (top : n ≤ vgaHeight) :
    (s.clearRows n).row = s.row ∧ (s.clearRows n).column = s.column ∧
      (s.clearRows n).color = s.color ∧
      ∀ i, i < n * 80 → (s.clearRows n).buffer i = vgaEntry 32 s.color := by
  induction n with
  | zero => exact ⟨rfl, rfl, rfl, fun i none_ => absurd none_ (by omega)⟩
  | succ n ih =>
    obtain ⟨row, column, color, cells⟩ := ih (Nat.le_of_succ_le top)
    obtain ⟨row', column', color', cells'⟩ := clearRow_shows (s.clearRows n) n top (Nat.le_refl _)
    rw [clearRows_succ]
    refine ⟨row'.trans row, column'.trans column, color'.trans color, fun i inside => ?_⟩
    rw [cells', color]
    unfold vgaWidth
    by_cases here : n * 80 ≤ i ∧ i < n * 80 + 80
    · rw [if_pos here]
    · rw [if_neg here, cells i (by omega)]

/-! ### The text on the sheet -/

def paper : Ink := (32, 7)

/-- The cursor stands behind the text, and every cell shows what the sheet has there. -/
structure Shows (t : Tty) (sheet : Sheet Ink) : Prop where
  row : t.row = sheet.done.length
  column : t.column = sheet.current.length
  narrow : sheet.current.length < vgaWidth
  low : sheet.done.length < vgaHeight
  cells : ∀ y x, y < vgaHeight → x < vgaWidth → t.shown y x = (sheet.cell y x).getD paper

theorem initialize_shows (s : Tty) : Shows s.terminalInitialize blank ∧ s.terminalInitialize.color = 7 := by
  have cleared : s.terminalInitialize =
      ({ s with row := 0, column := 0, color := 7, stores := [] } : Tty).clearRows vgaHeight := rfl
  obtain ⟨row, column, color, cells⟩ := clearRows_shows
    { s with row := 0, column := 0, color := 7, stores := [] } (Nat.le_refl vgaHeight)
  rw [cleared]
  refine ⟨⟨row, column, by decide, by decide, fun y x top left => ?_⟩, color⟩
  unfold vgaHeight at top
  unfold vgaWidth at left
  have nothing : (blank : Sheet Ink).cell y x = none := by
    rw [cell_eq]
    simp [blank]
  rw [nothing]
  unfold Tty.shown vgaWidth
  rw [cells (y * 80 + x) (by unfold vgaHeight; omega), inkOf_vgaEntry]
  rfl

theorem vgaWidth_positive : 0 < vgaWidth := by decide

def inkStep (color : BitVec 8) : CursorStep → Mark Ink
  | .put c => .put (c, color)
  | .newline => .newline

section Step

variable {t : Tty} {sheet : Sheet Ink} (h : Shows t sheet)
include h

theorem Shows.newline (fits : (sheet.mark vgaWidth .newline).done.length < vgaHeight) :
    Shows t.terminalNewline (sheet.mark vgaWidth .newline) := by
  have row := h.row
  have low := h.low
  unfold vgaHeight at low
  have next : (sheet.mark vgaWidth .newline).done.length = sheet.done.length + 1 := by
    rw [mark, List.length_append, List.length_singleton]
  refine ⟨?_, rfl, vgaWidth_positive, fits, fun y x top left => ?_⟩
  · rw [next]
    change wrap (t.row + 1) = _
    rw [wrap_eq (by omega), row]
  · rw [cell_newline]
    exact h.cells y x top left

theorem Shows.putentryat (c : BitVec 8) {y x : Nat} (top : y < vgaHeight) (left : x < vgaWidth) :
    (t.terminalPutentryat c t.color t.column t.row).shown y x =
      ((sheet.mark vgaWidth (.put (c, t.color))).cell y x).getD paper := by
  have row := h.row
  have column := h.column
  have narrow := h.narrow
  have low := h.low
  have before := h.cells y x top left
  rw [cell_put]
  unfold vgaHeight at low top
  unfold vgaWidth at narrow left
  unfold Tty.shown Tty.terminalPutentryat vgaWidth at *
  dsimp only
  rw [row, column, wrap_eq (by omega), Function.update_apply]
  by_cases here : y = sheet.done.length ∧ x = sheet.current.length
  · rw [if_pos here, if_pos (by omega), inkOf_vgaEntry]
    rfl
  · rw [if_neg here, if_neg (by omega)]
    exact before

theorem Shows.put (c : BitVec 8) (fits : (sheet.mark vgaWidth (.put (c, t.color))).done.length < vgaHeight) :
    Shows (t.terminalPutchar c) (sheet.mark vgaWidth (.put (c, t.color))) := by
  have row := h.row
  have column := h.column
  have narrow := h.narrow
  have low := h.low
  have cells := fun y x top left => h.putentryat c (y := y) (x := x) top left
  unfold vgaHeight at low
  unfold vgaWidth at narrow
  have nextColumn : wrap ((t.terminalPutentryat c t.color t.column t.row).column + 1) =
      sheet.current.length + 1 := by
    change wrap (t.column + 1) = _
    rw [wrap_eq (by omega), column]
  have nextRow : wrap ((t.terminalPutentryat c t.color t.column t.row).row + 1) = sheet.done.length + 1 := by
    change wrap (t.row + 1) = _
    rw [wrap_eq (by omega), row]
  unfold Tty.terminalPutchar
  dsimp only
  rw [nextColumn, nextRow]
  by_cases full : sheet.current.length + 1 = vgaWidth
  · have marked : sheet.mark vgaWidth (.put (c, t.color)) =
        ⟨sheet.done ++ [sheet.current ++ [(c, t.color)]], []⟩ := if_pos full
    rw [marked] at fits cells ⊢
    rw [List.length_append, List.length_singleton] at fits
    rw [if_pos full, if_neg (by omega)]
    refine ⟨?_, rfl, vgaWidth_positive, ?_, cells⟩
    · rw [List.length_append, List.length_singleton]
    · rw [List.length_append, List.length_singleton]
      exact fits
  · have marked : sheet.mark vgaWidth (.put (c, t.color)) =
        ⟨sheet.done, sheet.current ++ [(c, t.color)]⟩ := if_neg full
    rw [marked] at fits cells ⊢
    rw [if_neg full]
    unfold vgaWidth at full
    refine ⟨row, ?_, ?_, fits, cells⟩
    · rw [List.length_append, List.length_singleton]
    · rw [List.length_append, List.length_singleton]
      unfold vgaWidth
      omega

theorem Shows.step (step : CursorStep)
    (fits : (sheet.mark vgaWidth (inkStep t.color step)).done.length < vgaHeight) :
    ∃ t', cursorStep t step = some t' ∧ t'.color = t.color ∧
      Shows t' (sheet.mark vgaWidth (inkStep t.color step)) := by
  cases step with
  | put c =>
    refine ⟨_, rfl, ?_, h.put c fits⟩
    unfold Tty.terminalPutchar
    dsimp only
    split
    · rfl
    · rfl
  | newline => exact ⟨_, rfl, rfl, h.newline fits⟩

end Step

theorem Shows.steps (steps : List CursorStep) {t : Tty} {sheet : Sheet Ink} (h : Shows t sheet)
    (fits : (sheet.marks vgaWidth (steps.map (inkStep t.color))).done.length < vgaHeight) :
    ∃ t', run cursorStep t steps = some t' ∧ t'.color = t.color ∧
      Shows t' (sheet.marks vgaWidth (steps.map (inkStep t.color))) := by
  induction steps generalizing t sheet with
  | nil => exact ⟨t, rfl, rfl, h⟩
  | cons step rest ih =>
    have below := marks_done vgaWidth (rest.map (inkStep t.color)) (sheet.mark vgaWidth (inkStep t.color step))
    obtain ⟨u, here, color, shows_⟩ := h.step step (Nat.lt_of_le_of_lt below fits)
    obtain ⟨t', later, color', shown⟩ := ih shows_ (by rw [color]; exact fits)
    rw [color] at shown color'
    exact ⟨t', by rw [run_cons, here]; exact later, color', shown⟩

/-- The calls of tty.c, putchar above them and terminal_setcolor. -/
inductive ScreenCall where
  | print (call : TtyCall)
  | setcolor (color : BitVec 8)

def Tty.screenCall (s : Tty) : ScreenCall → Tty
  | .print call => s.call call
  | .setcolor color => s.terminalSetcolor color

/-- What the calls print, in the colors of the moment. -/
def inked : BitVec 8 → List ScreenCall → List (Mark Ink)
  | _, [] => []
  | color, .print call :: rest => call.steps.map (inkStep color) ++ inked color rest
  | _, .setcolor color :: rest => inked color rest

theorem Shows.calls (calls : List ScreenCall) {t : Tty} {sheet : Sheet Ink} (h : Shows t sheet)
    (fits : (sheet.marks vgaWidth (inked t.color calls)).done.length < vgaHeight) :
    Shows (calls.foldl Tty.screenCall t) (sheet.marks vgaWidth (inked t.color calls)) := by
  induction calls generalizing t sheet with
  | nil => exact h
  | cons call rest ih =>
    cases call with
    | setcolor color =>
      exact ih (t := t.terminalSetcolor color) ⟨h.row, h.column, h.narrow, h.low, h.cells⟩ fits
    | print call =>
      rw [inked, marks_append] at fits ⊢
      have below := marks_done vgaWidth (inked t.color rest)
        (sheet.marks vgaWidth (call.steps.map (inkStep t.color)))
      obtain ⟨u, ran, color, shows_⟩ := h.steps call.steps (Nat.lt_of_le_of_lt below fits)
      obtain rfl := Option.some.inj ((call_steps t call).symm.trans ran)
      rw [List.foldl_cons]
      have last := ih (t := t.call call) shows_ (by rw [color]; exact fits)
      rwa [color] at last

/-- From terminal_initialize on, whatever the memory of the display held before. -/
theorem screen_shows (s : Tty) (calls : List ScreenCall)
    (fits : (blank.marks vgaWidth (inked 7 calls)).done.length < vgaHeight) :
    Shows (calls.foldl Tty.screenCall s.terminalInitialize) (blank.marks vgaWidth (inked 7 calls)) := by
  obtain ⟨shows_, color⟩ := initialize_shows s
  rw [← color] at fits ⊢
  exact shows_.calls calls fits

def twoColors : List ScreenCall :=
  [.print (.terminalWritestring [72, 105, 10, 33]), .setcolor 2, .print (.putchar 63)]

theorem two_colors_shown : Shows (twoColors.foldl Tty.screenCall blankTty.terminalInitialize)
    (blank.marks vgaWidth (inked 7 twoColors)) :=
  screen_shows blankTty twoColors (by decide)

/-! ### puts -/

/-- Calls of puts, each with its fuel and its string. -/
def putsAll (m : Memory) (literal : Nat) : List (Nat × Nat) → Tty → Option Tty
  | [], t => some t
  | (fuel, string) :: rest, t =>
      (puts fuel m literal string t).bind fun r => putsAll m literal rest r.2.tty

section Puts

variable {m : Memory} {literal : Nat} (format : CString (window m literal) [ch '%', ch 's', 10])
include format

theorem puts_writes {string : Nat} {text : List (BitVec 8)} (here : CString (window m string) text)
    (short : text.length < intMax) (tty : Tty) : ∃ fuel t,
      puts fuel m literal string tty = some ((text.length : Int) + 1, t) ∧
        t.tty = tty.terminalWrite (text ++ [10]) := by
  have plain : (10 : BitVec 8) ≠ ch '%' := by decide
  have rendered : printfText m (fun _ => string) [ch '%', ch 's', 10] 0 = text ++ [10] := by
    have word : text.length < 2 ^ 32 := by
      unfold intMax at short
      omega
    rw [printfText_percent, if_neg (by decide), if_neg (by decide), if_pos rfl,
      printfText_literal m _ plain, stringAt_eq here word]
    rfl
  have noHex : NoHex [ch '%', ch 's', 10] := by
    rw [noHex_percent]
    exact ⟨by decide, fun _ => (noHex_literal plain []).mpr trivial⟩
  obtain ⟨fuel, v, t, ran, _, shown, _⟩ : Renders m literal (fun _ => string) ⟨0, 0, 0, 0, [], tty⟩
      [ch '%', ch 's', 10] := printfLoop_renders (string_ends format) _ _ format noHex (Nat.zero_le _)
  dsimp only at shown
  rw [rendered, Nat.zero_add, List.length_append, List.length_singleton] at shown
  obtain ⟨value, _, written⟩ := shown short
  refine ⟨fuel, t, ?_, written⟩
  rw [puts, printf, ran, value]
  rfl

/-- One call, from the left edge on. -/
theorem puts_shows {string : Nat} {text : List (BitVec 8)} (here : CString (window m string) text)
    (short : text.length < intMax) (line : 10 ∉ text) {t : Tty} {done : List (List Ink)}
    (shows_ : Shows t ⟨done, []⟩)
    (fits : (done ++ wrapLine vgaWidth (text.map fun c => (c, t.color))).length < vgaHeight) :
    ∃ fuel r, puts fuel m literal string t = some ((text.length : Int) + 1, r) ∧ r.tty.color = t.color ∧
      Shows r.tty ⟨done ++ wrapLine vgaWidth (text.map fun c => (c, t.color)), []⟩ := by
  obtain ⟨fuel, r, ran, written⟩ := puts_writes format here short t
  have marked : ((text ++ [10]).map stepOf).map (inkStep t.color) =
      (text.map fun c => (c, t.color)).map .put ++ [.newline] := by
    rw [List.map_append, List.map_append, List.map_map, List.map_map]
    congr 1
    rw [List.map_map]
    apply List.map_congr_left
    intro c mem
    have other : c ≠ 10 := fun same => line (same ▸ mem)
    rw [Function.comp_apply, stepOf, if_neg other]
    rfl
  have laid := ended_line vgaWidth_positive (text.map fun c => (c, t.color)) done
  obtain ⟨t', steps, color, shown⟩ := shows_.steps ((text ++ [10]).map stepOf)
    (by rw [marked, laid]; exact fits)
  obtain rfl := Option.some.inj ((terminalWrite_steps t (text ++ [10])).symm.trans steps)
  rw [marked, laid] at shown
  exact ⟨fuel, r, ran, by rw [written, color], by rw [written]; exact shown⟩

/-- The rows of these texts in one color. -/
def rowsIn (color : BitVec 8) (texts : List (List (BitVec 8))) : List (List Ink) :=
  texts.flatMap fun text => wrapLine vgaWidth (text.map fun c => (c, color))

theorem putsAll_shows (strings : List (Nat × List (BitVec 8))) {t : Tty} {done : List (List Ink)}
    (here : ∀ s ∈ strings, CString (window m s.1) s.2 ∧ s.2.length < intMax ∧ 10 ∉ s.2)
    (shows_ : Shows t ⟨done, []⟩)
    (fits : (done ++ rowsIn t.color (strings.map Prod.snd)).length < vgaHeight) :
    ∃ calls t', calls.map Prod.snd = strings.map Prod.fst ∧ putsAll m literal calls t = some t' ∧
      Shows t' ⟨done ++ rowsIn t.color (strings.map Prod.snd), []⟩ := by
  induction strings generalizing t done with
  | nil =>
    refine ⟨[], t, rfl, rfl, ?_⟩
    rw [List.map_nil, rowsIn, List.flatMap_nil, List.append_nil]
    exact shows_
  | cons s rest ih =>
    have split : done ++ rowsIn t.color ((s :: rest).map Prod.snd) =
        done ++ wrapLine vgaWidth (s.2.map fun c => (c, t.color)) ++ rowsIn t.color (rest.map Prod.snd) := by
      rw [List.map_cons, rowsIn, List.flatMap_cons, List.append_assoc]
      rfl
    rw [split] at fits ⊢
    obtain ⟨string, short, line⟩ := here s List.mem_cons_self
    have first : (done ++ wrapLine vgaWidth (s.2.map fun c => (c, t.color))).length < vgaHeight := by
      rw [List.length_append] at fits
      exact Nat.lt_of_le_of_lt (Nat.le_add_right _ _) fits
    obtain ⟨fuel, r, ran, color, shown⟩ := puts_shows format string short line shows_ first
    rw [← color] at fits ⊢
    obtain ⟨calls, t', names, later, last⟩ := ih (fun u mem => here u (List.mem_cons_of_mem s mem))
      (color ▸ shown) fits
    refine ⟨(fuel, s.1) :: calls, t', ?_, ?_, last⟩
    · rw [List.map_cons, List.map_cons, names]
    · rw [putsAll, ran]
      exact later

/-- Texts that puts prints one after the other are on the screen from the top down, each
on rows of its own, and nothing else is. -/
theorem puts_on_screen (strings : List (Nat × List (BitVec 8)))
    (here : ∀ s ∈ strings, CString (window m s.1) s.2 ∧ s.2.length < intMax ∧ 10 ∉ s.2)
    (fits : (rowsIn 7 (strings.map Prod.snd)).length < vgaHeight) (s : Tty) :
    ∃ calls t, calls.map Prod.snd = strings.map Prod.fst ∧
      putsAll m literal calls s.terminalInitialize = some t ∧
      Shows t ⟨rowsIn 7 (strings.map Prod.snd), []⟩ := by
  obtain ⟨shows_, color⟩ := initialize_shows s
  rw [← color] at fits ⊢
  exact putsAll_shows format strings here shows_ fits

end Puts

/-- "%s\n" and the string "Hi" behind it. -/
theorem hi_on_screen : ∃ calls t, calls.map Prod.snd = [4, 4] ∧
    putsAll (textMemory [ch '%', ch 's', 10, 0, ch 'H', ch 'i']) 0 calls blankTty.terminalInitialize = some t ∧
    Shows t ⟨rowsIn 7 [[ch 'H', ch 'i'], [ch 'H', ch 'i']], []⟩ := by
  have format : CString (window (textMemory [ch '%', ch 's', 10, 0, ch 'H', ch 'i']) 0) [ch '%', ch 's', 10] :=
    ⟨by decide, by decide, by decide⟩
  have string : CString (window (textMemory [ch '%', ch 's', 10, 0, ch 'H', ch 'i']) 4) [ch 'H', ch 'i'] :=
    ⟨by decide, by decide, by decide⟩
  refine puts_on_screen format [(4, [ch 'H', ch 'i']), (4, [ch 'H', ch 'i'])] ?_ (by decide) blankTty
  intro s mem
  obtain rfl : s = (4, [ch 'H', ch 'i']) := by simpa using mem
  exact ⟨string, by decide, by decide⟩

end RiseOS
