import RiseOS.Kernel.Tty
import RiseOS.Library.Runs

/-! The console cursor over any sequence of calls: on the screen as long as no
newline is printed in the last row. -/
namespace RiseOS
open Words Runs

inductive TtyCall where
  | terminalPutchar (c : BitVec 8)
  | terminalNewline
  | terminalWrite (data : List (BitVec 8))
  | terminalWritestring (data : List (BitVec 8))
  | putchar (ic : Int)

def Tty.call (s : Tty) : TtyCall → Tty
  | .terminalPutchar c => s.terminalPutchar c
  | .terminalNewline => s.terminalNewline
  | .terminalWrite data => s.terminalWrite data
  | .terminalWritestring data => s.terminalWritestring data
  | .putchar ic => s.putchar ic

inductive CursorStep where
  | put (c : BitVec 8)
  | newline
  deriving DecidableEq

def cursorStep (s : Tty) : CursorStep → Option Tty
  | .put c => some (s.terminalPutchar c)
  | .newline => some s.terminalNewline

def stepOf (c : BitVec 8) : CursorStep := if c = 10 then .newline else .put c

def TtyCall.steps : TtyCall → List CursorStep
  | .terminalPutchar c => [.put c]
  | .terminalNewline => [.newline]
  | .terminalWrite data => data.map stepOf
  | .terminalWritestring data => (data.takeWhile (fun c => c ≠ 0)).map stepOf
  | .putchar ic => [stepOf (BitVec.ofInt 8 ic)]

theorem terminalWrite_steps (s : Tty) (data : List (BitVec 8)) :
    run cursorStep s (data.map stepOf) = some (s.terminalWrite data) := by
  induction data generalizing s with
  | nil => rfl
  | cons c rest ih =>
    rw [List.map_cons, run_cons, stepOf, Tty.terminalWrite]
    split
    · exact ih s.terminalNewline
    · exact ih (s.terminalPutchar c)

theorem call_steps (s : Tty) (call : TtyCall) :
    run cursorStep s call.steps = some (s.call call) := by
  cases call with
  | terminalPutchar c => rfl
  | terminalNewline => rfl
  | terminalWrite data => exact terminalWrite_steps s data
  | terminalWritestring data => exact terminalWrite_steps s _
  | putchar ic => exact terminalWrite_steps s [BitVec.ofInt 8 ic]

theorem calls_steps (s : Tty) (calls : List TtyCall) :
    run cursorStep s (calls.flatMap TtyCall.steps) = some (calls.foldl Tty.call s) := by
  induction calls generalizing s with
  | nil => rfl
  | cons call rest ih =>
    rw [List.flatMap_cons, run_append, call_steps]
    exact ih (s.call call)

/-- The cursor is on the screen, and so were all stores. -/
structure OnScreen (s : Tty) : Prop where
  row : s.row < vgaHeight
  column : s.column < vgaWidth
  stores : ∀ i ∈ s.stores, i < vgaWidth * vgaHeight

theorem putentryat_onScreen {s : Tty} (h : OnScreen s) (c color : BitVec 8) {x y : Nat}
    (left : x < vgaWidth) (top : y < vgaHeight) : OnScreen (s.terminalPutentryat c color x y) := by
  refine ⟨h.row, h.column, ?_⟩
  intro i stored
  rcases List.mem_cons.mp stored with rfl | old
  · unfold vgaWidth vgaHeight at *
    rw [wrap_eq (by omega)]
    omega
  · exact h.stores i old

theorem foldl_onScreen {step : Tty → Nat → Tty} (l : List Nat)
    (keeps : ∀ s, ∀ x ∈ l, OnScreen s → OnScreen (step s x)) (s : Tty) (h : OnScreen s) :
    OnScreen (l.foldl step s) := by
  induction l generalizing s with
  | nil => exact h
  | cons x rest ih =>
    exact ih (fun t y mem => keeps t y (List.mem_cons_of_mem x mem)) _
      (keeps s x List.mem_cons_self h)

theorem initialize_onScreen (s : Tty) : OnScreen s.terminalInitialize := by
  unfold Tty.terminalInitialize
  have home : 0 < vgaHeight ∧ 0 < vgaWidth := by decide
  refine foldl_onScreen _ ?_ _ ⟨home.1, home.2, by simp⟩
  intro t y top h
  refine foldl_onScreen _ ?_ t h
  intro u x left h'
  exact putentryat_onScreen h' _ _ (List.mem_range.mp left) (List.mem_range.mp top)

theorem putchar_onScreen {s : Tty} (h : OnScreen s) (c : BitVec 8) :
    OnScreen (s.terminalPutchar c) := by
  have stored := putentryat_onScreen h c s.color h.column h.row
  have row := h.row
  have column := h.column
  have home : 0 < vgaWidth := by decide
  unfold vgaHeight at row
  unfold vgaWidth at column
  unfold Tty.terminalPutchar
  dsimp only
  have nextColumn : wrap ((s.terminalPutentryat c s.color s.column s.row).column + 1) = s.column + 1 :=
    wrap_eq (by change s.column + 1 < _; omega)
  have nextRow : wrap ((s.terminalPutentryat c s.color s.column s.row).row + 1) = s.row + 1 :=
    wrap_eq (by change s.row + 1 < _; omega)
  rw [nextColumn, nextRow]
  split
  · refine ⟨?_, home, stored.stores⟩
    change (if s.row + 1 = vgaHeight then 0 else s.row + 1) < vgaHeight
    unfold vgaHeight
    split <;> omega
  · rename_i inside
    unfold vgaWidth at inside
    refine ⟨h.row, ?_, stored.stores⟩
    change s.column + 1 < vgaWidth
    unfold vgaWidth
    omega

/-- The step is no newline in the last row. -/
def NotLast (s : Tty) (step : CursorStep) : Prop := step = .newline → s.row ≠ vgaHeight - 1

/-- terminal_newline counts the row up without the wrap that terminal_putchar has:
the cursor and all stores stay on the screen just if it never runs in the last row. -/
theorem cursor_on_screen_iff (s : Tty) (calls : List TtyCall) :
    run cursorStep s.terminalInitialize (calls.flatMap TtyCall.steps) =
        some (calls.foldl Tty.call s.terminalInitialize) ∧
      (Always cursorStep OnScreen s.terminalInitialize (calls.flatMap TtyCall.steps) ↔
        Permitted cursorStep NotLast s.terminalInitialize (calls.flatMap TtyCall.steps)) := by
  refine ⟨calls_steps s.terminalInitialize calls, ?_⟩
  refine always_iff_permitted cursorStep (fun _ _ => True) NotLast OnScreen OnScreen (fun _ h => h)
    ?_ ?_ ?_ _ _ (initialize_onScreen s) ?_
  · intro t step _ _
    cases step with
    | put c => exact ⟨_, rfl⟩
    | newline => exact ⟨_, rfl⟩
  · intro t step t' h _ result inside
    cases step with
    | put c =>
      obtain rfl := Option.some.inj result
      exact putchar_onScreen h c
    | newline =>
      obtain rfl := Option.some.inj result
      have row := h.row
      have last := inside rfl
      have home : 0 < vgaWidth := by decide
      unfold vgaHeight at row last
      refine ⟨?_, home, h.stores⟩
      change wrap (t.row + 1) < vgaHeight
      rw [wrap_eq (by omega)]
      unfold vgaHeight
      omega
  · intro t step t' h _ result outside after
    unfold NotLast at outside
    push Not at outside
    obtain ⟨rfl, last⟩ := outside
    obtain rfl := Option.some.inj result
    have row := after.row
    change wrap (t.row + 1) < vgaHeight at row
    rw [last] at row
    exact absurd row (by decide)
  · exact permitted_of_forall cursorStep (fun _ _ => trivial) _ _

def blankTty : Tty := ⟨0, 0, 0, fun _ => 0, []⟩

/-- 25 newlines in one string leave the screen, and the next character is stored
behind its last cell. -/
theorem newlines_leave_screen :
    ¬ Always cursorStep OnScreen blankTty.terminalInitialize
      ([.terminalWritestring (List.replicate 25 10), .terminalPutchar 65].flatMap TtyCall.steps) := by
  intro always
  have ran := calls_steps blankTty.terminalInitialize
    [.terminalWritestring (List.replicate 25 10), .terminalPutchar 65]
  have after := always _ (List.prefix_refl _) _ ran
  have stored : (2000 : Nat) ∈ ([.terminalWritestring (List.replicate 25 10),
      .terminalPutchar 65].foldl Tty.call blankTty.terminalInitialize).stores := by
    decide +kernel
  exact absurd (after.stores 2000 stored) (by decide)

end RiseOS
