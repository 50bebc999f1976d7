import RiseOS.Library.Locks

/-! A thread that nobody interrupts runs its commands as a sequential program. `Ends` is
the meaning of that program; the steps of the thread follow it. -/
namespace Locks

variable {Tid F A B D L W : Type}

abbrev Local (D L : Type) := D × L × Bool

/-- A command leads from one state to another; the last argument is whether it returns
from its function. -/
inductive Ends (p : Program F A B D L W) : Cmd F A B → Local D L → Local D L → Bool → Prop where
  | skip {s} : Ends p .skip s s false
  | act {a d l h} (w : W) : Ends p (.act a) (d, l, h) ((p.act a w d l).1, (p.act a w d l).2, h) false
  | exchangeFree {free taken d l h s' r} (zero : p.lock.read d = 0)
      (rest : Ends p free (p.lock.write d p.lock.busy, l, true) s' r) :
      Ends p (.exchange free taken) (d, l, h) s' r
  | exchangeTaken {free taken d l h s' r} (busy : p.lock.read d ≠ 0)
      (rest : Ends p taken (p.lock.write d p.lock.busy, l, h) s' r) :
      Ends p (.exchange free taken) (d, l, h) s' r
  | release {d l h} : Ends p .release (d, l, h) (p.lock.write d 0, l, false) false
  | ret {s} : Ends p .ret s s true
  | seq {first second s s' s'' r} (front : Ends p first s s' false) (rest : Ends p second s' s'' r) :
      Ends p (.seq first second) s s'' r
  | seqReturns {first second s s'} (front : Ends p first s s' true) :
      Ends p (.seq first second) s s' true
  | yes {b yes no d l h s' r} (holds : p.test b d l = true) (branch : Ends p yes (d, l, h) s' r) :
      Ends p (.ite b yes no) (d, l, h) s' r
  | no {b yes no d l h s' r} (fails : p.test b d l = false) (branch : Ends p no (d, l, h) s' r) :
      Ends p (.ite b yes no) (d, l, h) s' r
  | loopDone {b body d l h} (fails : p.test b d l = false) :
      Ends p (.loop b body) (d, l, h) (d, l, h) false
  | loopRound {b body d l h s' s'' r} (holds : p.test b d l = true)
      (round : Ends p body (d, l, h) s' false) (rest : Ends p (.loop b body) s' s'' r) :
      Ends p (.loop b body) (d, l, h) s'' r
  | foreverReturns {body s s'} (round : Ends p body s s' true) : Ends p (.forever body) s s' true
  | call {f d l h d' l' h' r} (body : Ends p (p.body f) (d, p.enter f l, h) (d', l', h') r) :
      Ends p (.call f) (d, l, h) (d', p.back f l l', h') false

theorem Ends.act_eq {p : Program F A B D L W} {a : A} {w : W} {d d' : D} {l l' : L} {h : Bool}
    (same : p.act a w d l = (d', l')) : Ends p (.act a) (d, l, h) (d', l', h) false := by
  have step : Ends p (.act a) (d, l, h) ((p.act a w d l).1, (p.act a w d l).2, h) false := .act w
  rwa [same] at step

def solo (p : Program F A B D L W) (x : D × Thread F A B L) (w : W) : Option (D × Thread F A B L) :=
  p.next w x.1 x.2

def Local.with (s : Local D L) (code : List (Item F A B L)) : D × Thread F A B L :=
  (s.1, ⟨code, s.2.1, s.2.2⟩)

def Reaches (p : Program F A B D L W) (x y : D × Thread F A B L) : Prop :=
  ∃ ws, Runs.run (solo p) x ws = some y

theorem Reaches.refl (p : Program F A B D L W) (x : D × Thread F A B L) : Reaches p x x := ⟨[], rfl⟩

theorem Reaches.trans {p : Program F A B D L W} {x y z : D × Thread F A B L} (h : Reaches p x y)
    (k : Reaches p y z) : Reaches p x z := by
  obtain ⟨ws, first⟩ := h
  obtain ⟨vs, second⟩ := k
  refine ⟨ws ++ vs, ?_⟩
  rw [Runs.run_append, first, Option.bind_some, second]

theorem Reaches.step {p : Program F A B D L W} {x y z : D × Thread F A B L} (w : W)
    (first : solo p x w = some y) (rest : Reaches p y z) : Reaches p x z := by
  obtain ⟨ws, rest⟩ := rest
  refine ⟨w :: ws, ?_⟩
  rw [Runs.run_cons, first, Option.bind_some, rest]

/-- The steps of an uninterrupted thread follow the meaning of its commands. -/
theorem Ends.reaches [Inhabited W] {p : Program F A B D L W} {c : Cmd F A B} {s s' : Local D L}
    {r : Bool} (ends : Ends p c s s' r) (k : List (Item F A B L)) :
    Reaches p (s.with (.cmd c :: k)) (s'.with (if r then unwind k else k)) := by
  induction ends generalizing k with
  | skip | release | ret => exact .step default rfl (.refl p _)
  | act w => exact .step w rfl (.refl p _)
  | @exchangeFree free taken d l h s' r zero rest ih =>
    refine .step default ?_ (ih k)
    simp [solo, Local.with, Program.next, Program.exec, zero]
  | @exchangeTaken free taken d l h s' r busy rest ih =>
    refine .step default ?_ (ih k)
    simp [solo, Local.with, Program.next, Program.exec, busy]
  | @seq first second s s' s'' r front rest ihFront ihRest =>
    exact .step default rfl ((ihFront (.cmd second :: k)).trans (ihRest k))
  | @seqReturns first second s s' front ih => exact .step default rfl (ih (.cmd second :: k))
  | yes holds branch ih =>
    refine .step default ?_ (ih k)
    simp [solo, Local.with, Program.next, Program.exec, holds]
  | no fails branch ih =>
    refine .step default ?_ (ih k)
    simp [solo, Local.with, Program.next, Program.exec, fails]
  | @loopDone b body d l h fails =>
    refine .step default ?_ (.refl p _)
    simp [solo, Local.with, Program.next, Program.exec, fails]
  | @loopRound b body d l h s' s'' r holds round rest ihRound ihRest =>
    refine .step default ?_ ((ihRound (.cmd (.loop b body) :: k)).trans (ihRest k))
    simp [solo, Local.with, Program.next, Program.exec, holds]
  | @foreverReturns body s s' round ih =>
    exact .step default rfl (ih (.cmd (.forever body) :: k))
  | @call f d l h d' l' h' r body ih =>
    refine .step default rfl ((ih (.leave f l :: k)).trans ?_)
    refine .step default ?_ (.refl p _)
    cases r <;> rfl

theorem Ends.first [Inhabited W] {p : Program F A B D L W} {front rest : Cmd F A B} {s s' : Local D L}
    (ends : Ends p front s s' false) (k : List (Item F A B L)) :
    Reaches p (s.with (.cmd (.seq front rest) :: k)) (s'.with (.cmd rest :: k)) :=
  .step default rfl (ends.reaches (.cmd rest :: k))

theorem Reaches.yes [Inhabited W] {p : Program F A B D L W} {b : B} {yes no : Cmd F A B}
    {s : Local D L} (holds : p.test b s.1 s.2.1 = true) (k : List (Item F A B L)) :
    Reaches p (s.with (.cmd (.ite b yes no) :: k)) (s.with (.cmd yes :: k)) := by
  refine .step default ?_ (.refl p _)
  simp [solo, Local.with, Program.next, Program.exec, holds]

/-- Without outcomes to choose from, a thread that runs alone comes to one end. -/
theorem Reaches.unique [Subsingleton W] {p : Program F A B D L W} {x y z : D × Thread F A B L}
    (first : Reaches p x y) (second : Reaches p x z) (doneY : y.2.code = []) (doneZ : z.2.code = []) :
    y = z := by
  have stuck : ∀ {u : D × Thread F A B L} (w : W), u.2.code = [] → solo p u w = none := by
    intro u w done
    simp [solo, Program.next, done]
  obtain ⟨ws, first⟩ := first
  obtain ⟨vs, second⟩ := second
  induction ws generalizing x vs with
  | nil =>
    obtain rfl := Option.some.inj first
    cases vs with
    | nil => exact Option.some.inj second
    | cons v vs => simp [stuck v doneY] at second
  | cons w ws ih =>
    obtain ⟨u, moved, rest⟩ := Option.bind_eq_some_iff.mp first
    cases vs with
    | nil =>
      obtain rfl := Option.some.inj second
      simp [stuck w doneZ] at moved
    | cons v vs =>
      obtain ⟨u', moved', rest'⟩ := Option.bind_eq_some_iff.mp second
      rw [Subsingleton.elim v w, moved] at moved'
      obtain rfl := Option.some.inj moved'
      exact ih rest vs rest'

theorem run_solo [DecidableEq Tid] (p : Program F A B D L W) (t : Tid) (ws : List W)
    (m : Machine Tid F A B D L) (y : D × Thread F A B L)
    (alone : Runs.run (solo p) (m.data, m.thread t) ws = some y) :
    Runs.run p.step m (ws.map fun w => (t, .go w)) =
      some { data := y.1, thread := Function.update m.thread t y.2 } := by
  induction ws generalizing m with
  | nil =>
    obtain rfl := Option.some.inj alone
    rw [List.map_nil, Runs.run_nil, Function.update_eq_self]
  | cons w rest ih =>
    rw [Runs.run_cons] at alone
    obtain ⟨x, first, later⟩ := Option.bind_eq_some_iff.mp alone
    have step : p.step m (t, .go w) =
        some { data := x.1, thread := Function.update m.thread t x.2 } := by
      simp only [solo] at first
      simp only [Program.step, first, Option.map_some]
    rw [List.map_cons, Runs.run_cons, step, Option.bind_some, ih _ (by simpa using later)]
    simp

/-- A function that an idle thread begins runs to its end, if nobody interrupts it. -/
theorem run_begin [DecidableEq Tid] [Inhabited W] {p : Program F A B D L W} {f : F} {args l : L}
    {d : D} {r : Bool} (m : Machine Tid F A B D L) (t : Tid) (idle : (m.thread t).code = [])
    (unheld : (m.thread t).holds = false) (entry : p.entry f = true)
    (ends : Ends p (p.body f) (m.data, args, false) (d, l, false) r) :
    ∃ ws : List W, Runs.run p.step m ((t, .begin f args) :: ws.map fun w => (t, .go w)) =
      some { data := d, thread := Function.update m.thread t ⟨[], l, false⟩ } := by
  obtain ⟨ws, alone⟩ := ends.reaches []
  have ended : (if r = true then unwind ([] : List (Item F A B L)) else []) = [] := by
    cases r <;> rfl
  rw [ended] at alone
  have begun : p.step m (t, .begin f args) = some { m with
      thread := Function.update m.thread t ⟨[.cmd (p.body f)], args, false⟩ } := by
    simp [Program.step, idle, entry, unheld]
  refine ⟨ws, ?_⟩
  rw [Runs.run_cons, begun, Option.bind_some,
    run_solo p t ws _ (d, ⟨[], l, false⟩) (by simpa [Local.with] using alone)]
  simp

end Locks
