import Mathlib.Logic.Function.Basic
import RiseOS.Library.Runs

/-! Threads over shared data with one lock word, which they take by an atomic exchange.
A thread runs commands that call functions. Every function has a contract on whether
its caller holds the lock, and a checker of commands against contracts gives mutual
exclusion for every schedule of any number of threads. -/
namespace Locks

/-- The lock word inside the shared data, and the value that marks it taken. -/
structure Lock (D : Type) where
  read : D → Nat
  write : D → Nat → D
  busy : Nat
  read_write : ∀ d v, read (write d v) = v
  busy_ne : busy ≠ 0

/-- Commands over functions, actions and tests. `exchange` puts the busy value into the
lock word and goes on by whether the word was zero; `release` stores zero. -/
inductive Cmd (F A B : Type) where
  | skip
  | act (a : A)
  | exchange (free taken : Cmd F A B)
  | release
  | ret
  | seq (first second : Cmd F A B)
  | ite (b : B) (yes no : Cmd F A B)
  | loop (b : B) (body : Cmd F A B)
  | forever (body : Cmd F A B)
  | call (f : F)

def Cmd.block {F A B : Type} : List (Cmd F A B) → Cmd F A B
  | [] => .skip
  | [c] => c
  | c :: rest => .seq c (block rest)

/-- What a thread still has to do: commands, and the returns to its callers. -/
inductive Item (F A B L : Type) where
  | cmd (c : Cmd F A B)
  | leave (f : F) (caller : L)

/-- `holds` is on from the exchange that took the lock to the next release. -/
structure Thread (F A B L : Type) where
  code : List (Item F A B L)
  locals : L
  holds : Bool

structure Machine (Tid F A B D L : Type) where
  data : D
  thread : Tid → Thread F A B L

/-- Functions with their bodies, and what actions, tests and calls do. An action may
depend on an outcome that the program does not decide. No action touches the lock word. -/
structure Program (F A B D L W : Type) where
  lock : Lock D
  body : F → Cmd F A B
  entry : F → Bool
  act : A → W → D → L → D × L
  test : B → D → L → Bool
  enter : F → L → L
  back : F → L → L → L
  act_read : ∀ a w d l, lock.read (act a w d l).1 = lock.read d

/-- An idle thread begins a function; any other takes its next step. -/
inductive Move (F L W : Type) where
  | begin (f : F) (args : L)
  | go (w : W)

structure Contract where
  before : Bool
  after : Bool
  deriving DecidableEq

variable {Tid F A B D L W : Type}

def unwind : List (Item F A B L) → List (Item F A B L)
  | [] => []
  | .cmd _ :: k => unwind k
  | .leave f caller :: k => .leave f caller :: k

namespace Program

variable (p : Program F A B D L W)

def exec (w : W) (d : D) (t : Thread F A B L) (k : List (Item F A B L)) :
    Cmd F A B → D × Thread F A B L
  | .skip => (d, { t with code := k })
  | .act a => ((p.act a w d t.locals).1, { t with code := k, locals := (p.act a w d t.locals).2 })
  | .exchange free taken =>
      (p.lock.write d p.lock.busy,
        if p.lock.read d = 0 then { t with code := .cmd free :: k, holds := true }
        else { t with code := .cmd taken :: k })
  | .release => (p.lock.write d 0, { t with code := k, holds := false })
  | .ret => (d, { t with code := unwind k })
  | .seq first second => (d, { t with code := .cmd first :: .cmd second :: k })
  | .ite b yes no => (d, { t with code := .cmd (if p.test b d t.locals then yes else no) :: k })
  | .loop b body =>
      (d, { t with code := if p.test b d t.locals then .cmd body :: .cmd (.loop b body) :: k else k })
  | .forever body => (d, { t with code := .cmd body :: .cmd (.forever body) :: k })
  | .call f =>
      (d, { t with code := .cmd (p.body f) :: .leave f t.locals :: k, locals := p.enter f t.locals })

def next (w : W) (d : D) (t : Thread F A B L) : Option (D × Thread F A B L) :=
  match t.code with
  | [] => none
  | .cmd c :: k => some (p.exec w d t k c)
  | .leave f caller :: k => some (d, { t with code := k, locals := p.back f caller t.locals })

def step [DecidableEq Tid] (m : Machine Tid F A B D L) (move : Tid × Move F L W) :
    Option (Machine Tid F A B D L) :=
  match move.2 with
  | .begin f args =>
      if (m.thread move.1).code.isEmpty && p.entry f then
        some { m with
          thread := Function.update m.thread move.1
            { m.thread move.1 with code := [.cmd (p.body f)], locals := args } }
      else none
  | .go w =>
      (p.next w m.data (m.thread move.1)).map fun r =>
        { data := r.1, thread := Function.update m.thread move.1 r.2 }

end Program

/-! ### The checker

`flow` follows a command from a state of holding: `none` when it breaks a rule,
otherwise how it can end, which is not at all when every path returns. -/

def join : Option Bool → Option Bool → Option (Option Bool)
  | none, e => some e
  | some h, none => some (some h)
  | some h, some h' => if h = h' then some (some h) else none

def flow (contract : F → Contract) (post : Bool) : Cmd F A B → Bool → Option (Option Bool)
  | .skip, h => some (some h)
  | .act _, h => some (some h)
  | .exchange free taken, h =>
      if h then none
      else (flow contract post free true).bind fun a =>
        (flow contract post taken false).bind (join a)
  | .release, h => if h then some (some false) else none
  | .ret, h => if h = post then some none else none
  | .seq first second, h =>
      (flow contract post first h).bind fun e =>
        match e with
        | none => some none
        | some h' => flow contract post second h'
  | .ite _ yes no, h =>
      (flow contract post yes h).bind fun a => (flow contract post no h).bind (join a)
  | .loop _ body, h =>
      (flow contract post body h).bind fun e => if e.getD h = h then some (some h) else none
  | .forever body, h =>
      (flow contract post body h).bind fun e => if e.getD h = h then some none else none
  | .call f, h =>
      if h = (contract f).before then some (some (contract f).after) else none

/-- The body meets the contract, and what threads begin by themselves needs no lock. -/
def Program.meets (p : Program F A B D L W) (contract : F → Contract) (f : F) : Bool :=
  (match flow contract (contract f).after (p.body f) (contract f).before with
    | none => false
    | some e => e.getD (contract f).after == (contract f).after) &&
  (!p.entry f || contract f == ⟨false, false⟩)

/-- The rest of a thread is fit to run from a state of holding: its commands pass the
checker one after the other, and at each return to a caller the contract is met. `post`
is what the current function promises. -/
inductive Fit (contract : F → Contract) : Bool → List (Item F A B L) → Bool → Prop where
  | idle : Fit contract false [] false
  | leave {outer k f caller} (rest : Fit contract outer k (contract f).after) :
      Fit contract (contract f).after (.leave f caller :: k) (contract f).after
  | cmd {post k h c e} (accepted : flow contract post c h = some e)
      (falls : ∀ h', e = some h' → Fit contract post k h')
      (returns : Fit contract post (unwind k) post) : Fit contract post (.cmd c :: k) h

/-- What one step of a thread does to the lock word and to its own holding. -/
inductive Turn : Nat → Bool → Nat → Bool → Prop where
  | still {word word' h} (same : word' = 0 ↔ word = 0) : Turn word h word' h
  | taken {word word'} (free : word = 0) (busy : word' ≠ 0) : Turn word false word' true
  | freed {word} : Turn word true 0 false

theorem join_some {a b e : Option Bool} (joined : join a b = some e) :
    (∀ h, a = some h → e = some h) ∧ (∀ h, b = some h → e = some h) := by
  cases a with
  | none =>
    obtain rfl : b = e := Option.some.inj joined
    exact ⟨nofun, fun _ same => same⟩
  | some h =>
    cases b with
    | none =>
      obtain rfl : some h = e := Option.some.inj joined
      exact ⟨fun _ same => same, nofun⟩
    | some h' =>
      simp only [join] at joined
      split at joined
      · rename_i equal
        obtain rfl := Option.some.inj joined
        subst equal
        exact ⟨fun _ same => same, fun _ same => same⟩
      · contradiction

section Soundness

variable {p : Program F A B D L W} {contract : F → Contract}

theorem meets_body {f : F} (sound : p.meets contract f = true) :
    ∃ e, flow contract (contract f).after (p.body f) (contract f).before = some e ∧
      e.getD (contract f).after = (contract f).after := by
  simp only [Program.meets, Bool.and_eq_true] at sound
  split at sound
  · exact absurd sound.1 (by decide)
  · rename_i e accepted
    exact ⟨e, accepted, by simpa using sound.1⟩

theorem meets_entry {f : F} (sound : p.meets contract f = true) (entry : p.entry f = true) :
    contract f = ⟨false, false⟩ := by
  simpa [Program.meets, entry] using (Bool.and_eq_true_iff.mp sound).2

theorem body_fit {f : F} {k : List (Item F A B L)} (sound : p.meets contract f = true)
    (rest : Fit contract (contract f).after k (contract f).after) (bottom : unwind k = k) :
    Fit contract (contract f).after (.cmd (p.body f) :: k) (contract f).before := by
  obtain ⟨e, accepted, ends⟩ := meets_body sound
  refine .cmd accepted ?_ (bottom.symm ▸ rest)
  rintro h' rfl
  exact (show h' = (contract f).after from ends) ▸ rest

theorem branch_fit {post h h' : Bool} {yes no : Cmd F A B} {k : List (Item F A B L)}
    {e : Option Bool}
    (accepted : ((flow contract post yes h).bind fun a =>
      (flow contract post no h').bind (join a)) = some e)
    (falls : ∀ h'', e = some h'' → Fit contract post k h'')
    (returns : Fit contract post (unwind k) post) :
    Fit contract post (.cmd yes :: k) h ∧ Fit contract post (.cmd no :: k) h' := by
  simp only [Option.bind_eq_some_iff] at accepted
  obtain ⟨a, ha, b, hb, joined⟩ := accepted
  obtain ⟨left, right⟩ := join_some joined
  exact ⟨.cmd ha (fun h'' ends => falls h'' (left h'' ends)) returns,
    .cmd hb (fun h'' ends => falls h'' (right h'' ends)) returns⟩

theorem round_fit {post h : Bool} {again body : Cmd F A B} {k : List (Item F A B L)}
    {e : Option Bool} (accepted : flow contract post body h = some e) (keeps : e.getD h = h)
    (round : Fit contract post (.cmd again :: k) h)
    (returns : Fit contract post (unwind k) post) :
    Fit contract post (.cmd body :: .cmd again :: k) h := by
  refine .cmd accepted ?_ returns
  rintro h' rfl
  exact (show h' = h from keeps) ▸ round

/-- One command of a fit thread leaves a fit thread, and turns the lock by the rules. -/
theorem exec_fit (sound : ∀ f, p.meets contract f = true) {post : Bool} {c : Cmd F A B}
    {k : List (Item F A B L)} (w : W) (d : D) (t : Thread F A B L)
    (fit : Fit contract post (.cmd c :: k) t.holds) :
    (∃ post', Fit contract post' (p.exec w d t k c).2.code (p.exec w d t k c).2.holds) ∧
      Turn (p.lock.read d) t.holds (p.lock.read (p.exec w d t k c).1)
        (p.exec w d t k c).2.holds := by
  have whole := fit
  cases fit with
  | cmd accepted falls returns =>
    cases c with
    | skip => exact ⟨⟨post, falls _ (Option.some.inj accepted).symm⟩, .still Iff.rfl⟩
    | act a =>
      refine ⟨⟨post, falls _ (Option.some.inj accepted).symm⟩, .still ?_⟩
      rw [Program.exec, p.act_read]
    | exchange free taken =>
      simp only [flow] at accepted
      split at accepted
      · contradiction
      · rename_i unheld
        obtain ⟨yes, no⟩ := branch_fit accepted falls returns
        rw [Bool.not_eq_true] at unheld
        by_cases zero : p.lock.read d = 0
        · simp only [Program.exec, if_pos zero, unheld]
          refine ⟨⟨post, yes⟩, .taken zero ?_⟩
          rw [p.lock.read_write]
          exact p.lock.busy_ne
        · simp only [Program.exec, if_neg zero, unheld]
          refine ⟨⟨post, no⟩, .still ?_⟩
          rw [p.lock.read_write]
          exact iff_of_false p.lock.busy_ne zero
    | release =>
      simp only [flow] at accepted
      split at accepted
      · rename_i held
        refine ⟨⟨post, falls _ (Option.some.inj accepted).symm⟩, ?_⟩
        simp only [Program.exec, p.lock.read_write, held]
        exact .freed
      · contradiction
    | ret =>
      simp only [flow] at accepted
      split at accepted
      · rename_i promised
        refine ⟨⟨post, ?_⟩, .still Iff.rfl⟩
        simp only [Program.exec, promised]
        exact returns
      · contradiction
    | seq first second =>
      refine ⟨⟨post, ?_⟩, .still Iff.rfl⟩
      simp only [flow, Option.bind_eq_some_iff] at accepted
      obtain ⟨e', front, back⟩ := accepted
      refine .cmd front ?_ returns
      rintro h' rfl
      exact .cmd back falls returns
    | ite b yes no =>
      refine ⟨⟨post, ?_⟩, .still Iff.rfl⟩
      obtain ⟨fitYes, fitNo⟩ := branch_fit accepted falls returns
      simp only [Program.exec]
      split
      · exact fitYes
      · exact fitNo
    | loop b body =>
      refine ⟨⟨post, ?_⟩, .still Iff.rfl⟩
      simp only [flow, Option.bind_eq_some_iff] at accepted
      obtain ⟨e', round, ends⟩ := accepted
      split at ends
      · rename_i keeps
        simp only [Program.exec]
        split
        · exact round_fit round keeps whole returns
        · exact falls _ (Option.some.inj ends).symm
      · contradiction
    | forever body =>
      refine ⟨⟨post, ?_⟩, .still Iff.rfl⟩
      simp only [flow, Option.bind_eq_some_iff] at accepted
      obtain ⟨e', round, ends⟩ := accepted
      split at ends
      · rename_i keeps
        exact round_fit round keeps whole returns
      · contradiction
    | call f =>
      simp only [flow] at accepted
      split at accepted
      · rename_i before
        refine ⟨⟨(contract f).after, ?_⟩, .still Iff.rfl⟩
        have caller := falls _ (Option.some.inj accepted).symm
        simp only [Program.exec, before]
        exact body_fit (sound f) (.leave caller) rfl
      · contradiction

theorem next_fit (sound : ∀ f, p.meets contract f = true) {post : Bool} (w : W) (d : D)
    (t : Thread F A B L) {r : D × Thread F A B L} (fit : Fit contract post t.code t.holds)
    (moved : p.next w d t = some r) :
    (∃ post', Fit contract post' r.2.code r.2.holds) ∧
      Turn (p.lock.read d) t.holds (p.lock.read r.1) r.2.holds := by
  unfold Program.next at moved
  split at moved
  · contradiction
  · rename_i c k code
    obtain rfl := Option.some.inj moved
    exact exec_fit sound w d t (code ▸ fit)
  · rename_i f caller k code
    obtain rfl := Option.some.inj moved
    refine ⟨?_, .still Iff.rfl⟩
    rw [code] at fit
    generalize held : t.holds = h at fit
    cases fit with
    | leave rest => exact ⟨_, rest⟩

end Soundness

/-! ### All threads together -/

section Exclusion

variable (p : Program F A B D L W) (contract : F → Contract)

/-- Every thread is fit to run, the lock word says whether one holds the lock, and no
two do. -/
structure LockInv (m : Machine Tid F A B D L) : Prop where
  fit : ∀ t, ∃ post, Fit contract post (m.thread t).code (m.thread t).holds
  word : p.lock.read m.data ≠ 0 ↔ ∃ t, (m.thread t).holds = true
  one : ∀ t u, (m.thread t).holds = true → (m.thread u).holds = true → t = u

/-- What the lock is for: one holder at most, a word that tells whether there is one,
and every call and every return with the lock as the contract says. -/
structure Excludes (m : Machine Tid F A B D L) : Prop where
  one : ∀ t u, (m.thread t).holds = true → (m.thread u).holds = true → t = u
  word : p.lock.read m.data ≠ 0 ↔ ∃ t, (m.thread t).holds = true
  calls : ∀ t f k, (m.thread t).code = .cmd (.call f) :: k → (m.thread t).holds = (contract f).before
  returns : ∀ t f caller k, (m.thread t).code = .leave f caller :: k →
    (m.thread t).holds = (contract f).after
  idle : ∀ t, (m.thread t).code = [] → (m.thread t).holds = false

variable {p contract}

theorem LockInv.excludes {m : Machine Tid F A B D L} (inv : LockInv p contract m) :
    Excludes p contract m where
  one := inv.one
  word := inv.word
  calls := by
    intro t f k code
    obtain ⟨post, fit⟩ := inv.fit t
    rw [code] at fit
    cases fit with
    | cmd accepted falls returns =>
      simp only [flow] at accepted
      split at accepted
      · assumption
      · contradiction
  returns := by
    intro t f caller k code
    obtain ⟨post, fit⟩ := inv.fit t
    rw [code] at fit
    generalize (m.thread t).holds = h at fit
    cases fit with
    | leave rest => rfl
  idle := by
    intro t code
    obtain ⟨post, fit⟩ := inv.fit t
    rw [code] at fit
    generalize (m.thread t).holds = h at fit
    cases fit with
    | idle => rfl

theorem lockInv_idle {m : Machine Tid F A B D L} (free : p.lock.read m.data = 0)
    (idle : ∀ t, (m.thread t).code = [] ∧ (m.thread t).holds = false) : LockInv p contract m where
  fit := by
    intro t
    refine ⟨false, ?_⟩
    rw [(idle t).1, (idle t).2]
    exact .idle
  word := by
    refine iff_of_false (fun busy => busy free) ?_
    rintro ⟨t, holds⟩
    rw [(idle t).2] at holds
    contradiction
  one := by
    intro t u holds
    rw [(idle t).2] at holds
    contradiction

variable [DecidableEq Tid]

theorem LockInv.turn {m : Machine Tid F A B D L} (inv : LockInv p contract m) (t : Tid) (d : D)
    (th : Thread F A B L) (fit : ∃ post, Fit contract post th.code th.holds)
    (turn : Turn (p.lock.read m.data) (m.thread t).holds (p.lock.read d) th.holds) :
    LockInv p contract { data := d, thread := Function.update m.thread t th } := by
  have fits : ∀ u, ∃ post, Fit contract post (Function.update m.thread t th u).code
      (Function.update m.thread t th u).holds := by
    intro u
    by_cases same : u = t
    · subst same
      simpa using fit
    · simpa [same] using inv.fit u
  have others : ∀ u, u ≠ t → Function.update m.thread t th u = m.thread u :=
    fun u other => Function.update_of_ne other th m.thread
  generalize before : (m.thread t).holds = h, after : th.holds = h' at turn
  generalize old : p.lock.read m.data = word, new : p.lock.read d = word' at turn
  have holders : h' = h →
      ∀ u, (Function.update m.thread t th u).holds = (m.thread u).holds := by
    intro same u
    by_cases here : u = t
    · subst here
      rw [Function.update_self, after, before, same]
    · rw [others u here]
  cases turn with
  | still same =>
    refine ⟨fits, ?_, ?_⟩
    · simp only [holders rfl, new]
      rw [← inv.word, old]
      exact not_congr same
    · intro u v hu hv
      rw [holders rfl] at hu hv
      exact inv.one u v hu hv
  | taken free busy =>
    have nobody : ∀ u, (m.thread u).holds ≠ true := by
      intro u holds
      exact inv.word.mpr ⟨u, holds⟩ (old.trans free)
    have only : ∀ u, (Function.update m.thread t th u).holds = true → u = t := by
      intro u holds
      by_contra other
      rw [others u other] at holds
      exact nobody u holds
    refine ⟨fits, ?_, fun u v hu hv => (only u hu).trans (only v hv).symm⟩
    refine iff_of_true ?_ ⟨t, ?_⟩
    · rw [new]
      exact busy
    · simpa using after
  | freed =>
    have nobody : ∀ u, (Function.update m.thread t th u).holds ≠ true := by
      intro u holds
      by_cases here : u = t
      · subst here
        rw [Function.update_self, after] at holds
        contradiction
      · rw [others u here] at holds
        exact here (inv.one u t holds before)
    refine ⟨fits, ?_, fun u v hu => absurd hu (nobody u)⟩
    exact iff_of_false (fun busy => busy new) (fun ⟨u, holds⟩ => nobody u holds)

theorem LockInv.step (sound : ∀ f, p.meets contract f = true) {m m' : Machine Tid F A B D L}
    (move : Tid × Move F L W) (inv : LockInv p contract m) (moved : p.step m move = some m') :
    LockInv p contract m' := by
  obtain ⟨t, move⟩ := move
  obtain ⟨post, fit⟩ := inv.fit t
  cases move with
  | begin f args =>
    simp only [Program.step] at moved
    split at moved
    · rename_i guard
      obtain rfl := Option.some.inj moved
      obtain ⟨idle, entry⟩ := Bool.and_eq_true_iff.mp guard
      have promise := meets_entry (sound f) entry
      have free : (m.thread t).holds = false :=
        inv.excludes.idle t (List.isEmpty_iff.mp idle)
      refine inv.turn t m.data _ ⟨false, ?_⟩ (.still Iff.rfl)
      have ready := body_fit (k := []) (sound f) (promise.symm ▸ .idle) rfl
      rw [promise] at ready
      simpa only [free] using ready
    · contradiction
  | go w =>
    obtain ⟨r, next, rfl⟩ := Option.map_eq_some_iff.mp moved
    obtain ⟨fit', turn⟩ := next_fit sound w m.data (m.thread t) fit next
    exact inv.turn t r.1 r.2 fit' turn

/-- A checked program excludes in every state of every schedule that starts with all
threads idle and the lock free. -/
theorem always_excludes (sound : ∀ f, p.meets contract f = true) {m : Machine Tid F A B D L}
    (free : p.lock.read m.data = 0)
    (idle : ∀ t, (m.thread t).code = [] ∧ (m.thread t).holds = false)
    (schedule : List (Tid × Move F L W)) :
    Runs.Always p.step (Excludes p contract) m schedule := by
  have always := Runs.always_invariant p.step (fun _ _ => True) (LockInv p contract)
    (fun _ move _ inv _ moved => inv.step sound move moved) m schedule (lockInv_idle free idle)
    (Runs.permitted_of_forall p.step (fun _ _ => trivial) m schedule)
  intro done prefix_ m' reached
  exact (always done prefix_ m' reached).excludes

end Exclusion

end Locks
