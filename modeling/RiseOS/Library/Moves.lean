import Mathlib.Data.List.Pairwise
import Mathlib.Logic.Function.Basic

/-! Assignments from cell to cell of one memory, carried out in turn. When none of
them touches a cell that an earlier one has written, they act as if all cells had
been read before the first one was written. -/
namespace Moves

variable {K A B : Type} [DecidableEq A]

/-- `m[target k] := m[source k]` for each `k` of the list. -/
def moves (target source : K → A) : List K → (A → B) → A → B
  | [], m => m
  | k :: ks, m => moves target source ks (Function.update m (target k) (m (source k)))

/-- A cell once written is neither read nor written again. -/
def Unspoiled (target source : K → A) (ks : List K) : Prop :=
  ks.Pairwise fun j k => target k ≠ target j ∧ source k ≠ target j

variable (target source : K → A)

theorem moves_outside (ks : List K) (m : A → B) (a : A) (outside : ∀ k ∈ ks, a ≠ target k) :
    moves target source ks m a = m a := by
  induction ks generalizing m with
  | nil => rfl
  | cons k ks ih =>
    rw [moves, ih _ fun j member => outside j (List.mem_cons_of_mem k member)]
    simp [outside k List.mem_cons_self]

theorem moves_inside {ks : List K} (unspoiled : Unspoiled target source ks) (m : A → B) {k : K}
    (member : k ∈ ks) : moves target source ks m (target k) = m (source k) := by
  induction ks generalizing m with
  | nil => cases member
  | cons j ks ih =>
    obtain ⟨first, later⟩ := List.pairwise_cons.mp unspoiled
    rw [moves]
    cases member with
    | head =>
      rw [moves_outside target source ks _ _ fun i inside => (first i inside).1.symm]
      simp
    | tail _ inside =>
      rw [ih later _ inside]
      simp [(first k inside).2]

theorem moves_snoc (ks : List K) (k : K) (m : A → B) : moves target source (ks ++ [k]) m =
    Function.update (moves target source ks m) (target k) (moves target source ks m (source k)) := by
  induction ks generalizing m with
  | nil => rfl
  | cons j ks ih => exact ih _

/-- Cells that are assigned in order from cells `d` before them repeat the first `d`. -/
theorem moves_repeat (cell : Nat → A) {d : Nat} (n : Nat)
    (apart : ∀ j, j < n + d → ∀ k, k < n + d → cell j = cell k → j = k) (m : A → B) {k : Nat}
    (inside : k < n + d) :
    moves (fun k => cell (k + d)) cell (List.range n) m (cell k) = m (cell (k % d)) := by
  induction n generalizing k with
  | zero =>
    rw [Nat.zero_add] at inside
    rw [Nat.mod_eq_of_lt inside]
    rfl
  | succ n ih =>
    have before := fun {k} => ih (k := k) fun j hj k hk => apart j (by omega) k (by omega)
    rw [List.range_succ, moves_snoc, Function.update_apply]
    by_cases last : k = n + d
    · by_cases none : d = 0
      · subst none
        rw [if_pos (by rw [last]), last]
        have known := moves_outside (fun k => cell (k + 0)) cell (List.range n) m (cell n)
        rw [Nat.mod_zero, Nat.add_zero]
        refine known fun j member e => ?_
        have less := List.mem_range.mp member
        have := apart n (by omega) (j + 0) (by omega) e
        omega
      · rw [if_pos (by rw [last]), before (by omega), last, Nat.add_mod_right]
    · have other : cell k ≠ cell (n + d) := fun e => last (apart k inside (n + d) (by omega) e)
      rw [if_neg other, before (by omega)]

end Moves
