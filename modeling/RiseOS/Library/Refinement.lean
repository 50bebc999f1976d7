import Mathlib.Data.List.Basic

/-! Data types whose operations answer. One implements another when related states
answer alike and stay related; then no sequence of operations tells them apart. -/
namespace Refinement

variable {S T A O : Type}

/-- The answers to a list of operations, and the state behind them. -/
def answers (step : S → A → S × O) : S → List A → List O × S
  | s, [] => ([], s)
  | s, a :: rest =>
      let r := step s a
      let later := answers step r.1 rest
      (r.2 :: later.1, later.2)

/-- `R` is kept by the operations that are allowed. -/
def Implements (allowed : A → Prop) (step : S → A → S × O) (spec : T → A → T × O)
    (R : S → T → Prop) : Prop :=
  ∀ s t a, allowed a → R s t → (step s a).2 = (spec t a).2 ∧ R (step s a).1 (spec t a).1

theorem Implements.run {allowed : A → Prop} {step : S → A → S × O} {spec : T → A → T × O}
    {R : S → T → Prop} (implements : Implements allowed step spec R) (ops : List A) {s : S} {t : T}
    (inside : ∀ a ∈ ops, allowed a) (related : R s t) :
    (answers step s ops).1 = (answers spec t ops).1 ∧
      R (answers step s ops).2 (answers spec t ops).2 := by
  induction ops generalizing s t with
  | nil => exact ⟨rfl, related⟩
  | cons a rest ih =>
    obtain ⟨answer, next⟩ := implements s t a (inside a List.mem_cons_self) related
    obtain ⟨later, final⟩ := ih (fun b member => inside b (List.mem_cons_of_mem a member)) next
    simp only [answers]
    exact ⟨by rw [answer, later], final⟩

end Refinement
