import Mathlib.Data.List.Basic

/-! Runs of a deterministic system whose calls may fail to return.
A run is a list of operations of any length. The invariant rule and the two
exact characterisations below speak about every run and every state on the way. -/
namespace Runs

variable {S A : Type}

/-- Execute a list of operations; `none` as soon as one call does not return. -/
def run (step : S → A → Option S) : S → List A → Option S
  | s, [] => some s
  | s, a :: rest => (step s a).bind (fun s' => run step s' rest)

/-- Every operation of the run is permitted in the state it is called in. -/
def Permitted (step : S → A → Option S) (ok : S → A → Prop) : S → List A → Prop
  | _, [] => True
  | s, a :: rest => ok s a ∧ ∀ s', step s a = some s' → Permitted step ok s' rest

/-- `P` holds in every state that the run passes through, its start included. -/
def Always (step : S → A → Option S) (P : S → Prop) (s : S) (ops : List A) : Prop :=
  ∀ done, done <+: ops → ∀ s', run step s done = some s' → P s'

@[simp] theorem run_nil (step : S → A → Option S) (s : S) : run step s [] = some s := rfl

@[simp] theorem run_cons (step : S → A → Option S) (s : S) (a : A) (rest : List A) :
    run step s (a :: rest) = (step s a).bind (fun s' => run step s' rest) := rfl

theorem run_append (step : S → A → Option S) (s : S) (as bs : List A) :
    run step s (as ++ bs) = (run step s as).bind (fun s' => run step s' bs) := by
  induction as generalizing s with
  | nil => rfl
  | cons a rest ih =>
    cases h : step s a with
    | none => simp [h]
    | some s' => simp [h, ih s']

theorem always_nil (step : S → A → Option S) (P : S → Prop) (s : S) :
    Always step P s [] ↔ P s := by
  constructor
  · intro h
    exact h [] (List.prefix_refl []) s rfl
  · intro hs done hd s' hr
    rw [List.prefix_nil.mp hd] at hr
    exact Option.some.inj hr ▸ hs

theorem always_cons (step : S → A → Option S) (P : S → Prop) (s : S) (a : A) (rest : List A) :
    Always step P s (a :: rest) ↔ P s ∧ ∀ s', step s a = some s' → Always step P s' rest := by
  constructor
  · intro h
    refine ⟨h [] (List.nil_prefix) s rfl, ?_⟩
    intro s' hs done hd t ht
    refine h (a :: done) (List.cons_prefix_cons.mpr ⟨rfl, hd⟩) t ?_
    simpa [hs] using ht
  · rintro ⟨here, later⟩ done hd t ht
    cases done with
    | nil => exact Option.some.inj ht ▸ here
    | cons b done =>
      obtain ⟨rfl, shorter⟩ := List.cons_prefix_cons.mp hd
      simp only [run_cons, Option.bind_eq_some_iff] at ht
      obtain ⟨s', hs, ht⟩ := ht
      exact later s' hs done shorter t ht

theorem permitted_cons_none (step : S → A → Option S) (ok : S → A → Prop) {s : S} {a : A}
    (rest : List A) (h : step s a = none) : Permitted step ok s (a :: rest) ↔ ok s a := by
  simp [Permitted, h]

theorem permitted_cons_some (step : S → A → Option S) (ok : S → A → Prop) {s s' : S} {a : A}
    (rest : List A) (h : step s a = some s') :
    Permitted step ok s (a :: rest) ↔ ok s a ∧ Permitted step ok s' rest := by
  simp [Permitted, h]

instance decidablePermitted (step : S → A → Option S) (ok : S → A → Prop)
    [∀ s a, Decidable (ok s a)] : ∀ s ops, Decidable (Permitted step ok s ops)
  | _, [] => isTrue trivial
  | s, a :: rest =>
    match h : step s a with
    | none => decidable_of_iff (ok s a) (permitted_cons_none step ok rest h).symm
    | some s' =>
      have := decidablePermitted step ok s' rest
      decidable_of_iff (ok s a ∧ Permitted step ok s' rest) (permitted_cons_some step ok rest h).symm

theorem permitted_of_forall (step : S → A → Option S) {ok : S → A → Prop} (all : ∀ s a, ok s a)
    (s : S) (ops : List A) : Permitted step ok s ops := by
  induction ops generalizing s with
  | nil => trivial
  | cons a rest ih => exact ⟨all s a, fun s' _ => ih s'⟩

/-- A run is permitted when, wherever it is cut, the next operation is permitted
in the state reached. -/
theorem permitted_iff_split (step : S → A → Option S) (ok : S → A → Prop) (s : S) (ops : List A) :
    Permitted step ok s ops ↔ ∀ done a rest, ops = done ++ a :: rest →
      ∀ t, run step s done = some t → ok t a := by
  induction ops generalizing s with
  | nil => simp [Permitted]
  | cons b ops ih =>
    constructor
    · rintro ⟨here, later⟩ done a rest split t ht
      cases done with
      | nil =>
        obtain ⟨rfl, _⟩ := List.cons.inj split
        exact Option.some.inj ht ▸ here
      | cons c done =>
        obtain ⟨rfl, shorter⟩ := List.cons.inj split
        simp only [run_cons, Option.bind_eq_some_iff] at ht
        obtain ⟨s', hs, ht⟩ := ht
        exact (ih s').mp (later s' hs) done a rest shorter t ht
    · intro all
      refine ⟨all [] b ops rfl s rfl, fun s' hs => (ih s').mpr fun done a rest split t ht => ?_⟩
      refine all (b :: done) a rest (by rw [split, List.cons_append]) t ?_
      simpa [hs] using ht

theorem permitted_append (step : S → A → Option S) (ok : S → A → Prop) (s : S) (as bs : List A) :
    Permitted step ok s (as ++ bs) ↔
      Permitted step ok s as ∧ ∀ t, run step s as = some t → Permitted step ok t bs := by
  induction as generalizing s with
  | nil => simp [Permitted]
  | cons a rest ih =>
    constructor
    · rintro ⟨here, later⟩
      refine ⟨⟨here, fun s' hs => ((ih s').mp (later s' hs)).1⟩, fun t ran => ?_⟩
      obtain ⟨s', hs, rest⟩ := Option.bind_eq_some_iff.mp ran
      exact ((ih s').mp (later s' hs)).2 t rest
    · rintro ⟨⟨here, later⟩, last⟩
      refine ⟨here, fun s' hs => (ih s').mpr ⟨later s' hs, fun t ran => last t ?_⟩⟩
      simpa [hs] using ran

theorem permitted_snoc (step : S → A → Option S) (ok : S → A → Prop) (s : S) (ops : List A) (a : A) :
    Permitted step ok s (ops ++ [a]) ↔
      Permitted step ok s ops ∧ ∀ t, run step s ops = some t → ok t a := by
  rw [permitted_append]
  simp [Permitted]

theorem Permitted.mono {step : S → A → Option S} {ok ok' : S → A → Prop}
    (weaker : ∀ s a, ok s a → ok' s a) {s : S} {ops : List A} (permitted : Permitted step ok s ops) :
    Permitted step ok' s ops := by
  induction ops generalizing s with
  | nil => trivial
  | cons a rest ih => exact ⟨weaker s a permitted.1, fun s' hs => ih (permitted.2 s' hs)⟩

/-- The step lemma carries the invariant along every permitted run, and no
call of such a run diverges. -/
theorem run_invariant (step : S → A → Option S) (ok : S → A → Prop) (inv : S → Prop)
    (preserves : ∀ s a, inv s → ok s a → ∃ s', step s a = some s' ∧ inv s')
    (s : S) (ops : List A) (initial : inv s) (permitted : Permitted step ok s ops) :
    ∃ s', run step s ops = some s' ∧ inv s' := by
  induction ops generalizing s with
  | nil => exact ⟨s, rfl, initial⟩
  | cons a rest ih =>
    obtain ⟨s', hs, hi⟩ := preserves s a initial permitted.1
    obtain ⟨t, ht, hj⟩ := ih s' hi (permitted.2 s' hs)
    exact ⟨t, by simp [hs, ht], hj⟩

theorem always_invariant (step : S → A → Option S) (ok : S → A → Prop) (inv : S → Prop)
    (preserves : ∀ s a s', inv s → ok s a → step s a = some s' → inv s')
    (s : S) (ops : List A) (initial : inv s) (permitted : Permitted step ok s ops) :
    Always step inv s ops := by
  induction ops generalizing s with
  | nil => exact (always_nil step inv s).mpr initial
  | cons a rest ih =>
    refine (always_cons step inv s a rest).mpr ⟨initial, ?_⟩
    intro s' hs
    exact ih s' (preserves s a s' initial permitted.1 hs) (permitted.2 s' hs)

section Agreement

variable {step step' : S → A → Option S} {ok : S → A → Prop} (inv : S → Prop)
  (same : ∀ s a, inv s → ok s a → step' s a = step s a)
  (keeps : ∀ s a s', inv s → ok s a → step s a = some s' → inv s')
include same keeps

/-- Two systems that agree on permitted steps permit the same runs. -/
theorem permitted_congr {s : S} (initial : inv s) (ops : List A) :
    Permitted step' ok s ops ↔ Permitted step ok s ops := by
  induction ops generalizing s with
  | nil => rfl
  | cons a rest ih =>
    refine and_congr_right fun allowed => forall_congr' fun s' => ?_
    rw [same s a initial allowed]
    exact forall_congr' fun hs => ih (keeps s a s' initial allowed hs)

theorem run_congr {s : S} (initial : inv s) {ops : List A} (permitted : Permitted step ok s ops) :
    run step' s ops = run step s ops := by
  induction ops generalizing s with
  | nil => rfl
  | cons a rest ih =>
    rw [run_cons, run_cons, same s a initial permitted.1]
    refine Option.bind_congr fun s' hs => ?_
    exact ih (keeps s a s' initial permitted.1 hs) (permitted.2 s' hs)

theorem always_congr {P : S → Prop} {s : S} (initial : inv s) {ops : List A}
    (permitted : Permitted step ok s ops) : Always step' P s ops ↔ Always step P s ops := by
  refine forall_congr' fun done => forall_congr' fun before => forall_congr' fun s' => ?_
  obtain ⟨rest, rfl⟩ := before
  rw [run_congr inv same keeps initial ((permitted_append step ok s done rest).mp permitted).1]

end Agreement

/-- When each step of a larger system is a permitted run of a smaller one, every state
that its runs reach is reached by a permitted run of the smaller one. -/
theorem run_expands {B : Type} (step : S → A → Option S) (ok : S → A → Prop)
    (large : S → B → Option S) (okLarge : S → B → Prop) (inv : S → Prop)
    (preserves : ∀ s a s', inv s → ok s a → step s a = some s' → inv s')
    (expand : ∀ s b s', inv s → okLarge s b → large s b = some s' →
      ∃ ops, Permitted step ok s ops ∧ run step s ops = some s')
    (s : S) (ops : List B) (initial : inv s) (permitted : Permitted large okLarge s ops) {t : S}
    (ran : run large s ops = some t) :
    ∃ small, Permitted step ok s small ∧ run step s small = some t := by
  induction ops generalizing s with
  | nil => exact ⟨[], trivial, ran⟩
  | cons b rest ih =>
    obtain ⟨s', here, later⟩ := Option.bind_eq_some_iff.mp ran
    obtain ⟨first, allowed, reached⟩ := expand s b s' initial permitted.1 here
    have kept := always_invariant step ok inv preserves s first initial allowed first
      List.prefix_rfl s' reached
    obtain ⟨second, allowed', reached'⟩ := ih s' kept (permitted.2 s' here) later
    refine ⟨first ++ second, (permitted_append step ok s first second).mpr ⟨allowed, ?_⟩, ?_⟩
    · intro u hu
      rw [reached] at hu
      exact Option.some.inj hu ▸ allowed'
    · rw [run_append, reached]
      exact reached'

/-- A loop whose rounds all return is a fold, and carries what each permitted round keeps. -/
theorem foldl_invariant (f : S → A → S) (ok : S → A → Prop) (inv : S → Prop) (ops : List A)
    (preserves : ∀ s a, a ∈ ops → inv s → ok s a → inv (f s a)) (s : S) (initial : inv s)
    (permitted : Permitted (fun s a => some (f s a)) ok s ops) : inv (ops.foldl f s) := by
  induction ops generalizing s with
  | nil => exact initial
  | cons a rest ih =>
    have here : inv (f s a) := preserves s a List.mem_cons_self initial permitted.1
    apply ih
    · intro t b member
      exact preserves t b (List.mem_cons_of_mem a member)
    · exact here
    · exact permitted.2 (f s a) rfl

/-- When a permitted step keeps the invariant exactly if it meets `cond`, and
otherwise breaks `P`, the whole run keeps `P` exactly if all its steps meet `cond`. -/
theorem always_iff_permitted (step : S → A → Option S) (ok cond : S → A → Prop)
    (inv P : S → Prop) (holds : ∀ s, inv s → P s)
    (returns : ∀ s a, inv s → ok s a → ∃ s', step s a = some s')
    (good : ∀ s a s', inv s → ok s a → step s a = some s' → cond s a → inv s')
    (bad : ∀ s a s', inv s → ok s a → step s a = some s' → ¬ cond s a → ¬ P s')
    (s : S) (ops : List A) (initial : inv s) (permitted : Permitted step ok s ops) :
    Always step P s ops ↔ Permitted step cond s ops := by
  induction ops generalizing s with
  | nil => exact ⟨fun _ => trivial, fun _ => (always_nil step P s).mpr (holds s initial)⟩
  | cons a rest ih =>
    obtain ⟨s', hs⟩ := returns s a initial permitted.1
    rw [always_cons]
    constructor
    · rintro ⟨_, later⟩
      have after : P s' := later s' hs [] List.nil_prefix s' rfl
      have met : cond s a := by
        by_contra missed
        exact bad s a s' initial permitted.1 hs missed after
      refine ⟨met, ?_⟩
      intro t ht
      have inv' := good s a t initial permitted.1 ht met
      exact (ih t inv' (permitted.2 t ht)).mp (later t ht)
    · rintro ⟨met, later⟩
      refine ⟨holds s initial, ?_⟩
      intro t ht
      have inv' := good s a t initial permitted.1 ht met
      exact (ih t inv' (permitted.2 t ht)).mpr (later t ht)

end Runs
