import RiseOS.Library.Stages
import RiseOS.Library.Uninterrupted

/-! Linearizability of calls with one section each. What threads see of a run is the
beginnings and ends of their calls; it is explained by an order in which every call takes
effect at one moment between the two, as if it ran alone. -/
namespace Locks

variable {Tid F A B D L W : Type}

/-- A call with the locals that it returns with. -/
structure Call (Tid F L : Type) where
  thread : Tid
  fn : F
  args : L
  result : L

inductive Event (Tid F L : Type) where
  | began (t : Tid) (f : F) (args : L)
  | ended (t : Tid) (result : L)

inductive Status (F L : Type) where
  | idle
  | pending (f : F) (args : L)
  | effected (f : F) (result : L)

/-- The calls take effect in their order, each between its beginning and its end. -/
inductive Linear [DecidableEq Tid] :
    List (Event Tid F L) → List (Call Tid F L) → (Tid → Status F L) → Prop where
  | start : Linear [] [] fun _ => .idle
  | began {events calls status t} (f : F) (args : L) (before : Linear events calls status)
      (idle : status t = .idle) :
      Linear (events ++ [.began t f args]) calls (Function.update status t (.pending f args))
  | effect {events calls status t f args} (result : L) (before : Linear events calls status)
      (pending : status t = .pending f args) :
      Linear events (calls ++ [⟨t, f, args, result⟩])
        (Function.update status t (.effected f result))
  | ended {events calls status t f result} (before : Linear events calls status)
      (effected : status t = .effected f result) :
      Linear (events ++ [.ended t result]) calls (Function.update status t .idle)

def Program.start (p : Program F A B D L W) (f : F) (args : L) : Thread F A B L :=
  ⟨[.cmd (p.body f)], args, false⟩

/-- A thread runs alone, and its actions come out as `honest` allows. -/
def Follows (p : Program F A B D L W) (honest : W → D → Thread F A B L → Prop)
    (x y : D × Thread F A B L) : Prop :=
  ∃ ws, Runs.run (solo p) x ws = some y ∧
    Runs.Permitted (solo p) (fun x w => honest w x.1 x.2) x ws

/-- The calls one after the other, nobody interrupting. -/
inductive Serially (p : Program F A B D L W) (honest : W → D → Thread F A B L → Prop) :
    D → List (Call Tid F L) → D → Prop where
  | nil {d} : Serially p honest d [] d
  | cons {d d' d'' c calls}
      (first : Follows p honest (d, p.start c.fn c.args) (d', ⟨[], c.result, false⟩))
      (rest : Serially p honest d' calls d'') : Serially p honest d (c :: calls) d''

section History

variable [DecidableEq Tid] (p : Program F A B D L W)

def event (m' : Machine Tid F A B D L) : Tid × Move F L W → List (Event Tid F L)
  | (t, .begin f args) => [.began t f args]
  | (t, .go _) => if (m'.thread t).code.isEmpty then [.ended t (m'.thread t).locals] else []

/-- The beginnings and ends of calls in a run. -/
def history : Machine Tid F A B D L → List (Tid × Move F L W) → List (Event Tid F L)
  | _, [] => []
  | m, move :: rest =>
    match p.step m move with
    | none => []
    | some m' => event m' move ++ history m' rest

end History

/-- The calls that threads may begin, and how their actions come out. -/
def Allowed (span : F → Option Span) (honest : W → D → Thread F A B L → Prop)
    (m : Machine Tid F A B D L) : Tid × Move F L W → Prop
  | (_, .begin f _) => span f = some ⟨.before, .after⟩
  | (t, .go w) => honest w m.data (m.thread t)

section Follow

variable {p : Program F A B D L W} {honest : W → D → Thread F A B L → Prop}

theorem Follows.refl (x : D × Thread F A B L) : Follows p honest x x := ⟨[], rfl, trivial⟩

theorem Follows.trans {x y z : D × Thread F A B L} (h : Follows p honest x y)
    (k : Follows p honest y z) : Follows p honest x z := by
  obtain ⟨ws, first, allowed⟩ := h
  obtain ⟨vs, second, later⟩ := k
  refine ⟨ws ++ vs, ?_, ?_⟩
  · rw [Runs.run_append, first, Option.bind_some, second]
  · rw [Runs.permitted_iff_split] at allowed later ⊢
    intro done w rest split y' reached
    rcases List.append_eq_append_iff.mp split with ⟨more, rfl, tail⟩ | ⟨more, rfl, tail⟩
    · rw [Runs.run_append, first, Option.bind_some] at reached
      exact later more w rest tail y' reached
    · cases more with
      | nil =>
        rw [List.append_nil] at first
        obtain rfl := Option.some.inj (first.symm.trans reached)
        exact later [] w rest tail.symm y rfl
      | cons v more =>
        obtain ⟨rfl, _⟩ := List.cons.inj tail
        exact allowed done w more rfl y' reached

theorem Follows.step {d d' : D} {t t' : Thread F A B L} (w : W) (moved : p.next w d t = some (d', t'))
    (allowed : honest w d t) : Follows p honest (d, t) (d', t') := by
  refine ⟨[w], ?_, allowed, fun _ _ => trivial⟩
  simp [solo, moved]

theorem Alone.follows {q : Private p}
    (harmless : ∀ d t t', q.step t = some t' → ∃ w, honest w d t) (d : D) {t t' : Thread F A B L}
    (alone : Alone q t t') : Follows p honest (d, t) (d, t') := by
  induction alone with
  | refl => exact .refl _
  | tail _ step ih =>
    obtain ⟨w, allowed⟩ := harmless d _ _ step
    exact ih.trans (.step w (q.step_next step w d) allowed)

end Follow

/-! ### A thread on its way to the lock -/

/-- Where a thread is in the spin loop. -/
inductive Spot where
  | enter | round | attempt | failed | wait

def Spot.code (b : B) : Spot → List (Item F A B L)
  | .enter => [.cmd (.forever (spinBody b))]
  | .round => [.cmd (spinBody b), .cmd (.forever (spinBody b))]
  | .attempt =>
      [.cmd (.exchange .ret .skip), .cmd (.loop b .skip), .cmd (.forever (spinBody b))]
  | .failed => [.cmd .skip, .cmd (.loop b .skip), .cmd (.forever (spinBody b))]
  | .wait => [.cmd (.loop b .skip), .cmd (.forever (spinBody b))]

/-- A thread that began as `x₀` and has not got the lock. In the spin loop it counts as if
it had just come there. -/
inductive Approach {p : Program F A B D L W} (q : Private p) (span : F → Option Span)
    (x₀ : Thread F A B L) : Thread F A B L → Prop where
  | quiet {x post h} (alone : Alone q x₀ x) (sits : Sits q span post x.code h)
      (out : h ≠ .inside) : Approach q span x₀ x
  | spin {x b k} (spot : Spot) (alone : Alone q x₀ x)
      (here : x.code = .cmd (.forever (spinBody b)) :: k)
      (rest : Sits q span .inside (unwind k) .inside) :
      Approach q span x₀ { x with code := spot.code b ++ k }

/-- One step on the way: still on the way, or the lock is taken. -/
inductive Nearer {p : Program F A B D L W} (q : Private p) (span : F → Option Span)
    (x₀ : Thread F A B L) (d : D) (x : Thread F A B L) : D → Thread F A B L → Prop where
  | waits {d' x'} (approach : Approach q span x₀ x') (holds : x'.holds = false)
      (same : d' = d ∨ p.lock.read d ≠ 0 ∧ d' = p.lock.write d p.lock.busy) :
      Nearer q span x₀ d x d' x'
  | takes {x'} (free : p.lock.read d = 0) (alone : Alone q x₀ x)
      (sits : Sits q span .inside x'.code .inside) (holds : x'.holds = true) :
      Nearer q span x₀ d x (p.lock.write d p.lock.busy) x'

section Approaching

variable {p : Program F A B D L W} {q : Private p} {span : F → Option Span} {x₀ : Thread F A B L}

theorem Approach.holds {x : Thread F A B L} (approach : Approach q span x₀ x)
    (unheld : x₀.holds = false) : x.holds = false := by
  cases approach with
  | quiet alone => exact alone.holds.trans unheld
  | spin spot alone => exact alone.holds.trans unheld

theorem Approach.ended {x : Thread F A B L} (approach : Approach q span x₀ x) (done : x.code = []) :
    Alone q x₀ x := by
  cases approach with
  | quiet alone => exact alone
  | spin spot => cases spot <;> contradiction

theorem Approach.spins {x : Thread F A B L} {b : B} {k : List (Item F A B L)} (unheld : x₀.holds = false)
    (alone : Alone q x₀ x) (here : x.code = .cmd (.forever (spinBody b)) :: k)
    (rest : Sits q span .inside (unwind k) .inside) (spot : Spot) {w : W} {d : D}
    {r : D × Thread F A B L} (moved : p.next w d { x with code := spot.code b ++ k } = some r) :
    Nearer q span x₀ d { x with code := spot.code b ++ k } r.1 r.2 := by
  have free : x.holds = false := alone.holds.trans unheld
  have at_spot : ∀ spot : Spot, Approach q span x₀ { x with code := spot.code b ++ k } :=
    fun spot => .spin spot alone here rest
  cases spot with
  | enter =>
    obtain rfl := Option.some.inj moved
    exact .waits (at_spot .round) free (.inl rfl)
  | round =>
    obtain rfl := Option.some.inj moved
    exact .waits (at_spot .attempt) free (.inl rfl)
  | attempt =>
    obtain rfl := Option.some.inj moved
    by_cases zero : p.lock.read d = 0
    · -- the loop is entered and its first round begun without the shared data
      have enters : q.step x = some { x with code := Spot.round.code b ++ k } := by
        simp only [Private.step, here]
        rfl
      simp only [Program.exec, if_pos zero]
      refine .takes zero ((alone.tail enters).tail rfl) ?_ rfl
      refine .cmd (e := none) ?_ (fun _ never => ?_) rest
      · simp [follow, Stage.Within]
      · cases never
    · simp only [Program.exec, if_neg zero]
      exact .waits (at_spot .failed) free (.inr ⟨zero, rfl⟩)
  | failed =>
    obtain rfl := Option.some.inj moved
    exact .waits (at_spot .wait) free (.inl rfl)
  | wait =>
    obtain rfl := Option.some.inj moved
    by_cases more : p.test b d x.locals = true
    · simp only [Program.exec, if_pos more]
      exact .waits (at_spot .failed) free (.inl rfl)
    · simp only [Program.exec, if_neg more]
      exact .waits (at_spot .enter) free (.inl rfl)

theorem Approach.next (sound : ∀ f, q.sectioned span f = true) (unheld : x₀.holds = false)
    {x : Thread F A B L} (approach : Approach q span x₀ x) {w : W} {d : D} {r : D × Thread F A B L}
    (moved : p.next w d x = some r) : Nearer q span x₀ d x r.1 r.2 := by
  have free := approach.holds unheld
  cases approach with
  | @quiet x post h alone sits out =>
    have held : h = .inside ↔ x.holds = true := by simp [out, free]
    have advance := sits.next sound held moved
    generalize r.1 = d', r.2 = x' at advance
    cases advance with
    | quiet step _ sits' out' =>
      exact .waits (.quiet (alone.tail step) sits' out') ((q.step_holds step).trans free) (.inl rfl)
    | inside held => exact absurd held out
    | spin _ here rest => exact .waits (.spin .round alone here rest) free (.inl rfl)
  | spin spot alone here rest => exact Approach.spins unheld alone here rest spot moved

end Approaching

end Locks
