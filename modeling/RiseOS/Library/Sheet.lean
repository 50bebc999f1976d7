import Mathlib.Data.List.Basic

/-! Text on a sheet of rows of one width: a row that is full is complete, and a newline
completes any row. -/

structure Sheet (α : Type) where
  done : List (List α)
  current : List α

namespace Sheet

variable {α : Type}

inductive Mark (α : Type) where
  | put (a : α)
  | newline
  deriving DecidableEq

def mark (width : Nat) (s : Sheet α) : Mark α → Sheet α
  | .put a =>
      if s.current.length + 1 = width then ⟨s.done ++ [s.current ++ [a]], []⟩
      else ⟨s.done, s.current ++ [a]⟩
  | .newline => ⟨s.done ++ [s.current], []⟩

def marks (width : Nat) (s : Sheet α) (ms : List (Mark α)) : Sheet α := ms.foldl (mark width) s

def blank : Sheet α := ⟨[], []⟩

def rows (s : Sheet α) : List (List α) := s.done ++ [s.current]

def cell (s : Sheet α) (y x : Nat) : Option α := (s.rows[y]?).bind fun row => row[x]?

/-- The rows that a line takes; a line that fills its last row takes one more. -/
def wrapLine (width : Nat) (line : List α) : List (List α) :=
  (List.range (line.length / width + 1)).map fun k => (line.drop (width * k)).take width

/-! ### Cells -/

theorem cell_eq (s : Sheet α) (y x : Nat) : s.cell y x =
    if y < s.done.length then (s.done[y]?).bind fun row => row[x]?
    else if y = s.done.length then s.current[x]? else none := by
  unfold cell rows
  by_cases above : y < s.done.length
  · rw [if_pos above, List.getElem?_append_left above]
  · rw [if_neg above, List.getElem?_append_right (by omega)]
    by_cases here : y = s.done.length
    · rw [if_pos here, here, Nat.sub_self]
      rfl
    · rw [if_neg here, List.getElem?_eq_none (by rw [List.length_singleton]; omega)]
      rfl

theorem cell_put (width : Nat) (s : Sheet α) (a : α) (y x : Nat) : (s.mark width (.put a)).cell y x =
    if y = s.done.length ∧ x = s.current.length then some a else s.cell y x := by
  have row : (s.current ++ [a])[x]? = if x = s.current.length then some a else s.current[x]? := by
    rw [List.getElem?_append]
    by_cases before : x < s.current.length
    · rw [if_pos before, if_neg (by omega)]
    · rw [if_neg before]
      by_cases here : x = s.current.length
      · rw [if_pos here, here, Nat.sub_self]
        rfl
      · rw [if_neg here, List.getElem?_eq_none (by rw [List.length_singleton]; omega),
          List.getElem?_eq_none (by omega)]
  rw [mark]
  split
  · rw [cell_eq, cell_eq, List.length_append, List.length_singleton]
    by_cases above : y < s.done.length
    · rw [if_pos (by omega), if_pos above, if_neg (by omega), List.getElem?_append_left above]
    · by_cases here : y = s.done.length
      · subst here
        rw [if_pos (Nat.lt_succ_self _), List.getElem?_append_right (Nat.le_refl _), Nat.sub_self,
          List.getElem?_cons_zero, Option.bind_some, row, if_neg (Nat.lt_irrefl _), if_pos rfl]
        simp only [true_and]
      · rw [if_neg (by omega), if_neg above, if_neg here]
        simp [here]
  · rw [cell_eq, cell_eq]
    dsimp only
    by_cases above : y < s.done.length
    · rw [if_pos above, if_pos above, if_neg (by omega)]
    · by_cases here : y = s.done.length
      · rw [if_neg above, if_pos here, if_neg above, if_pos here, row]
        simp [here]
      · rw [if_neg above, if_neg here, if_neg above, if_neg here, if_neg (by omega)]

theorem cell_newline (width : Nat) (s : Sheet α) (y x : Nat) :
    (s.mark width .newline).cell y x = s.cell y x := by
  rw [mark, cell_eq, cell_eq, List.length_append, List.length_singleton]
  by_cases above : y < s.done.length
  · rw [if_pos (by omega), if_pos above, List.getElem?_append_left above]
  · by_cases here : y = s.done.length
    · subst here
      rw [if_pos (by omega), if_neg (by omega), if_pos rfl, List.getElem?_append_right (Nat.le_refl _),
        Nat.sub_self, List.getElem?_cons_zero, Option.bind_some]
    · rw [if_neg (by omega), if_neg above, if_neg here]
      simp

theorem mark_done (width : Nat) (s : Sheet α) (m : Mark α) :
    s.done.length ≤ (s.mark width m).done.length := by
  cases m with
  | put a =>
    rw [mark]
    split
    · rw [List.length_append]
      exact Nat.le_add_right _ _
    · exact Nat.le_refl _
  | newline =>
    rw [mark, List.length_append]
    exact Nat.le_add_right _ _

theorem marks_done (width : Nat) (ms : List (Mark α)) (s : Sheet α) :
    s.done.length ≤ (s.marks width ms).done.length := by
  induction ms generalizing s with
  | nil => exact Nat.le_refl _
  | cons m rest ih => exact Nat.le_trans (mark_done width s m) (ih (s.mark width m))

theorem marks_append (width : Nat) (s : Sheet α) (first second : List (Mark α)) :
    s.marks width (first ++ second) = (s.marks width first).marks width second := List.foldl_append

/-! ### Lines -/

theorem wrapLine_short {width : Nat} {line : List α} (short : line.length < width) :
    wrapLine width line = [line] := by
  unfold wrapLine
  rw [Nat.div_eq_of_lt short]
  simp [List.take_of_length_le (Nat.le_of_lt short)]

theorem wrapLine_long {width : Nat} (some_ : 0 < width) {line : List α} (long : width ≤ line.length) :
    wrapLine width line = line.take width :: wrapLine width (line.drop width) := by
  have count : line.length / width + 1 = ((line.drop width).length / width + 1) + 1 := by
    rw [List.length_drop, Nat.div_eq_sub_div some_ long]
  unfold wrapLine
  rw [count, List.range_succ_eq_map, List.map_cons, List.map_map]
  congr 1
  apply List.map_congr_left
  intro k _
  rw [Function.comp_apply, List.drop_drop, Nat.mul_succ, Nat.add_comm (width * k)]

theorem puts_short {width : Nat} (line : List α) {done : List (List α)} {current : List α}
    (short : current.length + line.length < width) :
    marks width ⟨done, current⟩ (line.map .put) = ⟨done, current ++ line⟩ := by
  induction line generalizing current with
  | nil =>
    rw [List.append_nil]
    rfl
  | cons a rest ih =>
    rw [List.length_cons] at short
    have step : mark width ⟨done, current⟩ (.put a) = ⟨done, current ++ [a]⟩ := if_neg (by dsimp only; omega)
    rw [List.map_cons, marks, List.foldl_cons, step]
    refine (ih ?_).trans ?_
    · rw [List.length_append, List.length_singleton]
      omega
    · rw [List.append_assoc, List.singleton_append]

theorem puts_row {width : Nat} (line : List α) (done : List (List α)) (current : List α)
    (some_ : line ≠ []) (full : current.length + line.length = width) :
    marks width ⟨done, current⟩ (line.map .put) = ⟨done ++ [current ++ line], []⟩ := by
  obtain ⟨before, last, rfl⟩ := (List.eq_nil_or_concat line).resolve_left some_
  rw [List.concat_eq_append, List.length_append, List.length_singleton] at full
  have filled : mark width ⟨done, current ++ before⟩ (.put last) = ⟨done ++ [current ++ before ++ [last]], []⟩ :=
    if_pos (by rw [List.length_append]; omega)
  rw [List.concat_eq_append, List.map_append, marks_append, puts_short before (by omega)]
  refine filled.trans ?_
  rw [List.append_assoc current]

/-- By induction on the length, a row at a time. -/
theorem puts_line {width : Nat} (some_ : 0 < width) (line : List α) (done : List (List α)) :
    (marks width ⟨done, []⟩ (line.map .put)).rows = done ++ wrapLine width line := by
  generalize size : line.length = n
  induction n using Nat.strongRecOn generalizing line done with
  | ind n ih =>
    by_cases short : line.length < width
    · rw [wrapLine_short short, puts_short line (by rw [List.length_nil]; omega)]
      rfl
    · have long : width ≤ line.length := by omega
      have first : (line.take width).length = width := by
        rw [List.length_take]
        omega
      have cut : line.take width ++ line.drop width = line := List.take_append_drop width line
      have row := puts_row (line.take width) done []
        (List.ne_nil_of_length_pos (by omega)) (by rw [first, List.length_nil, Nat.zero_add])
      rw [wrapLine_long some_ long, ← cut, List.map_append, marks_append, row, cut, List.nil_append]
      rw [ih (line.drop width).length (by rw [List.length_drop]; omega) (line.drop width) _ rfl,
        List.append_assoc, List.singleton_append]

/-- A line from the left edge on, and the newline that ends it. -/
theorem ended_line {width : Nat} (some_ : 0 < width) (line : List α) (done : List (List α)) :
    marks width ⟨done, []⟩ (line.map .put ++ [.newline]) = ⟨done ++ wrapLine width line, []⟩ := by
  rw [marks_append, ← puts_line some_ line done]
  rfl

end Sheet
