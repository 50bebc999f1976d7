import Mathlib.Logic.Relation
import RiseOS.Library.Locks

/-! Calls that do all their work on the shared data in one section under the lock.
A checker follows a command through the stages of a call: before the section, inside it
and after it. Outside, only locals count; the lock is taken by a spin loop. -/
namespace Locks

variable {Tid F A B D L W : Type}

inductive Stage where
  | before | inside | after
  deriving DecidableEq

/-- A call that never took the lock may end as one that gave it back. -/
def Stage.Within (h post : Stage) : Prop := h = post ∨ h = .before ∧ post = .after

instance (h post : Stage) : Decidable (h.Within post) := inferInstanceAs (Decidable (_ ∨ _))

structure Span where
  enter : Stage
  leave : Stage

/-- The actions and tests that neither use nor change the shared data. -/
structure Private (p : Program F A B D L W) where
  act : A → Option (L → L)
  test : B → Option (L → Bool)
  act_eq : ∀ {a g}, act a = some g → ∀ w d l, p.act a w d l = (d, g l)
  test_eq : ∀ {b g}, test b = some g → ∀ d l, p.test b d l = g l

/-- Try to take the lock, wait as long as the test holds, and try again. -/
def spinBody (b : B) : Cmd F A B := .seq (.exchange .ret .skip) (.loop b .skip)

def Cmd.spins : Cmd F A B → Bool
  | .seq (.exchange .ret .skip) (.loop _ .skip) => true
  | _ => false

theorem spins_eq {c : Cmd F A B} (spins : c.spins = true) : ∃ b, c = spinBody b := by
  unfold Cmd.spins at spins
  split at spins
  · exact ⟨_, rfl⟩
  · contradiction

def agree : Option Stage → Option Stage → Option (Option Stage)
  | none, e => some e
  | some h, none => some (some h)
  | some h, some h' => if h = h' then some (some h) else none

theorem agree_some {a b e : Option Stage} (agreed : agree a b = some e) :
    (∀ h, a = some h → e = some h) ∧ (∀ h, b = some h → e = some h) := by
  cases a with
  | none =>
    obtain rfl : b = e := Option.some.inj agreed
    exact ⟨nofun, fun _ same => same⟩
  | some h =>
    cases b with
    | none =>
      obtain rfl : some h = e := Option.some.inj agreed
      exact ⟨fun _ same => same, nofun⟩
    | some h' =>
      simp only [agree] at agreed
      split at agreed
      · rename_i equal
        obtain rfl := Option.some.inj agreed
        subst equal
        exact ⟨fun _ same => same, fun _ same => same⟩
      · contradiction

section Checker

variable {p : Program F A B D L W} (q : Private p) (span : F → Option Span)

/-- How a command ends that starts in a stage: `none` when it breaks a rule. -/
def follow (post : Stage) : Cmd F A B → Stage → Option (Option Stage)
  | .skip, h => some (some h)
  | .act a, h => if h = .inside ∨ (q.act a).isSome then some (some h) else none
  | .exchange _ _, _ => none
  | .release, h => if h = .inside then some (some .after) else none
  | .ret, h => if h.Within post then some none else none
  | .seq first second, h =>
      (follow post first h).bind fun e =>
        match e with
        | none => some none
        | some h' => follow post second h'
  | .ite b yes no, h =>
      if h = .inside ∨ (q.test b).isSome then
        (follow post yes h).bind fun a => (follow post no h).bind (agree a)
      else none
  | .loop _ body, h =>
      if h = .inside then
        (follow post body h).bind fun e => if e.getD h = h then some (some h) else none
      else none
  | .forever body, h =>
      if body.spins ∧ h = .before ∧ post = .inside then some none else none
  | .call f, h =>
      (span f).bind fun s => if h = s.enter ∧ h ≠ .after then some (some s.leave) else none

/-- The body of `f` goes through its stages. -/
def Private.sectioned (f : F) : Bool :=
  match span f with
  | none => true
  | some s =>
    match follow q span s.leave (p.body f) s.enter with
    | none => false
    | some none => true
    | some (some h) => decide (h.Within s.leave)

/-- The rest of a thread passes the checker from a stage on. -/
inductive Sits : Stage → List (Item F A B L) → Stage → Prop where
  | idle {h} (out : h ≠ .inside) : Sits .after [] h
  | leave {outer k f caller s h} (of : span f = some s) (ends : h.Within s.leave)
      (rest : Sits outer k s.leave) : Sits s.leave (.leave f caller :: k) h
  | cmd {post k h c e} (accepted : follow q span post c h = some e)
      (falls : ∀ h', e = some h' → Sits post k h') (returns : Sits post (unwind k) post) :
      Sits post (.cmd c :: k) h

/-- The next state of a thread whose step does not concern the shared data. -/
def Private.step (t : Thread F A B L) : Option (Thread F A B L) :=
  match t.code with
  | [] => none
  | .leave f caller :: k => some { t with code := k, locals := p.back f caller t.locals }
  | .cmd c :: k =>
    match c with
    | .skip => some { t with code := k }
    | .act a => (q.act a).map fun g => { t with code := k, locals := g t.locals }
    | .ret => some { t with code := unwind k }
    | .seq first second => some { t with code := .cmd first :: .cmd second :: k }
    | .ite b yes no =>
        (q.test b).map fun g => { t with code := .cmd (if g t.locals then yes else no) :: k }
    | .forever body => some { t with code := .cmd body :: .cmd (.forever body) :: k }
    | .call f =>
        some { t with
          code := .cmd (p.body f) :: .leave f t.locals :: k, locals := p.enter f t.locals }
    | .exchange _ _ | .release | .loop _ _ => none

end Checker

section Steps

variable {p : Program F A B D L W} {q : Private p} {span : F → Option Span}

theorem Private.step_next {t t' : Thread F A B L} (quiet : q.step t = some t') (w : W) (d : D) :
    p.next w d t = some (d, t') := by
  unfold Private.step at quiet
  unfold Program.next
  split at quiet
  · contradiction
  · rename_i f caller k code
    obtain rfl := Option.some.inj quiet
    simp only [code]
  · rename_i c k code
    simp only [code]
    cases c with
    | act a =>
      obtain ⟨g, known, rfl⟩ := Option.map_eq_some_iff.mp quiet
      simp only [Program.exec, q.act_eq known]
    | ite b yes no =>
      obtain ⟨g, known, rfl⟩ := Option.map_eq_some_iff.mp quiet
      simp only [Program.exec, q.test_eq known]
    | exchange free taken => contradiction
    | release => contradiction
    | loop b body => contradiction
    | skip | ret | seq | forever | call =>
      obtain rfl := Option.some.inj quiet
      rfl

theorem Private.step_holds {t t' : Thread F A B L} (quiet : q.step t = some t') :
    t'.holds = t.holds := by
  unfold Private.step at quiet
  split at quiet
  · contradiction
  · obtain rfl := Option.some.inj quiet
    rfl
  · rename_i c k code
    cases c with
    | act a =>
      obtain ⟨g, _, rfl⟩ := Option.map_eq_some_iff.mp quiet
      rfl
    | ite b yes no =>
      obtain ⟨g, _, rfl⟩ := Option.map_eq_some_iff.mp quiet
      rfl
    | exchange free taken => contradiction
    | release => contradiction
    | loop b body => contradiction
    | skip | ret | seq | forever | call =>
      obtain rfl := Option.some.inj quiet
      rfl

theorem sectioned_body {f : F} {s : Span} (sound : q.sectioned span f = true) (of : span f = some s) :
    ∃ e, follow q span s.leave (p.body f) s.enter = some e ∧ ∀ h, e = some h → h.Within s.leave := by
  simp only [Private.sectioned, of] at sound
  split at sound
  · contradiction
  · rename_i accepted
    exact ⟨none, accepted, nofun⟩
  · rename_i h accepted
    refine ⟨some h, accepted, ?_⟩
    rintro h' same
    exact Option.some.inj same ▸ of_decide_eq_true sound

theorem body_sits {f : F} {s : Span} {k : List (Item F A B L)} (sound : q.sectioned span f = true)
    (of : span f = some s) (rest : ∀ h, h.Within s.leave → Sits q span s.leave k h)
    (bottom : unwind k = k) : Sits q span s.leave (.cmd (p.body f) :: k) s.enter := by
  obtain ⟨e, accepted, ends⟩ := sectioned_body sound of
  refine .cmd accepted (fun h same => rest h (ends h same)) ?_
  rw [bottom]
  exact rest s.leave (.inl rfl)

theorem branch_sits {post h : Stage} {yes no : Cmd F A B} {k : List (Item F A B L)}
    {e : Option Stage}
    (accepted : ((follow q span post yes h).bind fun a =>
      (follow q span post no h).bind (agree a)) = some e)
    (falls : ∀ h', e = some h' → Sits q span post k h')
    (returns : Sits q span post (unwind k) post) :
    Sits q span post (.cmd yes :: k) h ∧ Sits q span post (.cmd no :: k) h := by
  simp only [Option.bind_eq_some_iff] at accepted
  obtain ⟨a, ha, b, hb, agreed⟩ := accepted
  obtain ⟨left, right⟩ := agree_some agreed
  exact ⟨.cmd ha (fun h' ends => falls h' (left h' ends)) returns,
    .cmd hb (fun h' ends => falls h' (right h' ends)) returns⟩

theorem returns_sits {post h : Stage} {k : List (Item F A B L)} (within : h.Within post)
    (returns : Sits q span post (unwind k) post) :
    ∃ h', Sits q span post (unwind k) h' ∧ (h' = .inside ↔ h = .inside) ∧
      (h = .after → h' = .after) ∧ (h' = .before → h = .before) := by
  refine ⟨post, returns, ?_⟩
  rcases within with rfl | ⟨rfl, rfl⟩
  · exact ⟨Iff.rfl, id, id⟩
  · simp

/-- What one step of a thread can be: its own business, a step inside the section or out
of it, or the first of the spin loop. -/
inductive Advance (q : Private p) (span : F → Option Span) (d : D) (t : Thread F A B L) (h : Stage) :
    D → Thread F A B L → Prop where
  | quiet {t' post' h'} (step : q.step t = some t') (out : h ≠ .inside)
      (sits : Sits q span post' t'.code h') (out' : h' ≠ .inside) (later : h = .after → h' = .after) :
      Advance q span d t h d t'
  | inside {d' t' post' h'} (held : h = .inside) (sits : Sits q span post' t'.code h')
      (later : h' ≠ .before) (holds : h' = .inside ↔ t'.holds = true) : Advance q span d t h d' t'
  | spin {b k} (start : h = .before) (here : t.code = .cmd (.forever (spinBody b)) :: k)
      (rest : Sits q span .inside (unwind k) .inside) :
      Advance q span d t h d { t with code := .cmd (spinBody b) :: .cmd (.forever (spinBody b)) :: k }

theorem Advance.keep {d d' : D} {t t' : Thread F A B L} {post' h h' : Stage}
    (held : h = .inside ↔ t.holds = true) (quiet : h ≠ .inside → q.step t = some t' ∧ d' = d)
    (holds : t'.holds = t.holds) (sits : Sits q span post' t'.code h')
    (same : h' = .inside ↔ h = .inside) (later : h = .after → h' = .after)
    (earlier : h' = .before → h = .before) : Advance q span d t h d' t' := by
  by_cases inside : h = .inside
  · refine .inside inside sits (fun early => ?_) ?_
    · rw [earlier early] at inside
      contradiction
    · rw [holds, same, held]
  · obtain ⟨step, rfl⟩ := quiet inside
    exact .quiet step inside sits (fun e => inside (same.mp e)) later

theorem Sits.exec (sound : ∀ f, q.sectioned span f = true) {post h : Stage} {c : Cmd F A B}
    {k : List (Item F A B L)} (w : W) (d : D) (t : Thread F A B L) (here : t.code = .cmd c :: k)
    (held : h = .inside ↔ t.holds = true) (sits : Sits q span post (.cmd c :: k) h) :
    Advance q span d t h (p.exec w d t k c).1 (p.exec w d t k c).2 := by
  have whole := sits
  cases sits with
  | cmd accepted falls returns =>
    cases c with
    | skip =>
      refine .keep held (fun _ => ⟨?_, rfl⟩) rfl (falls _ (Option.some.inj accepted).symm)
        Iff.rfl id id
      simp only [Private.step, here, Program.exec]
    | act a =>
      simp only [follow] at accepted
      split at accepted
      · rename_i allowed
        refine .keep held (fun out => ?_) rfl (falls _ (Option.some.inj accepted).symm) Iff.rfl id id
        obtain ⟨g, known⟩ := Option.isSome_iff_exists.mp (allowed.resolve_left out)
        simp only [Private.step, here, known, Program.exec, q.act_eq known, Option.map_some, and_self]
      · contradiction
    | exchange free taken => contradiction
    | release =>
      simp only [follow] at accepted
      split at accepted
      · rename_i inside
        refine .inside inside (falls _ (Option.some.inj accepted).symm) (by decide) ?_
        simp [Program.exec]
      · contradiction
    | ret =>
      simp only [follow] at accepted
      split at accepted
      · rename_i within
        obtain ⟨h', sits', same, later, earlier⟩ := returns_sits within returns
        refine .keep held (fun _ => ⟨?_, rfl⟩) rfl sits' same later earlier
        simp only [Private.step, here, Program.exec]
      · contradiction
    | seq first second =>
      simp only [follow, Option.bind_eq_some_iff] at accepted
      obtain ⟨e', front, back⟩ := accepted
      have sits' : Sits q span post (.cmd first :: .cmd second :: k) h := by
        refine .cmd front ?_ returns
        rintro h' rfl
        exact .cmd back falls returns
      refine .keep held (fun _ => ⟨?_, rfl⟩) rfl sits' Iff.rfl id id
      simp only [Private.step, here, Program.exec]
    | ite b yes no =>
      simp only [follow] at accepted
      split at accepted
      · rename_i allowed
        obtain ⟨sitsYes, sitsNo⟩ := branch_sits accepted falls returns
        have sits' : Sits q span post (.cmd (if p.test b d t.locals then yes else no) :: k) h := by
          split
          · exact sitsYes
          · exact sitsNo
        refine .keep held (fun out => ⟨?_, rfl⟩) rfl sits' Iff.rfl id id
        obtain ⟨g, known⟩ := Option.isSome_iff_exists.mp (allowed.resolve_left out)
        simp only [Private.step, here, known, Program.exec, q.test_eq known, Option.map_some]
      · contradiction
    | loop b body =>
      simp only [follow] at accepted
      split at accepted
      · rename_i inside
        simp only [Option.bind_eq_some_iff] at accepted
        obtain ⟨e', round, ends⟩ := accepted
        split at ends
        · rename_i keeps
          have again : Sits q span post (.cmd body :: .cmd (.loop b body) :: k) h := by
            refine .cmd round ?_ returns
            rintro h' rfl
            exact (show h' = h from keeps) ▸ whole
          have sits' : Sits q span post
              (if p.test b d t.locals then .cmd body :: .cmd (.loop b body) :: k else k) h := by
            split
            · exact again
            · exact falls _ (Option.some.inj ends).symm
          exact .keep held (fun out => absurd inside out) rfl sits' Iff.rfl id id
        · contradiction
      · contradiction
    | forever body =>
      simp only [follow] at accepted
      split at accepted
      · rename_i loop
        obtain ⟨spins, start, rfl⟩ := loop
        obtain ⟨b, rfl⟩ := spins_eq spins
        exact .spin start here returns
      · contradiction
    | call f =>
      simp only [follow, Option.bind_eq_some_iff] at accepted
      obtain ⟨s, of, ends⟩ := accepted
      split at ends
      · rename_i enters
        obtain ⟨rfl, _⟩ := enters
        have caller := falls _ (Option.some.inj ends).symm
        have body : Sits q span s.leave (.cmd (p.body f) :: .leave f t.locals :: k) s.enter :=
          body_sits (sound f) of (fun h' within => .leave of within caller) rfl
        refine .keep held (fun _ => ⟨?_, rfl⟩) rfl body Iff.rfl id id
        simp only [Private.step, here, Program.exec]
      · contradiction

theorem Sits.next (sound : ∀ f, q.sectioned span f = true) {post h : Stage} {w : W} {d : D}
    {t : Thread F A B L} {r : D × Thread F A B L} (held : h = .inside ↔ t.holds = true)
    (sits : Sits q span post t.code h) (moved : p.next w d t = some r) :
    Advance q span d t h r.1 r.2 := by
  unfold Program.next at moved
  split at moved
  · contradiction
  · rename_i c k code
    obtain rfl := Option.some.inj moved
    exact (code ▸ sits).exec sound w d t code held
  · rename_i f caller k code
    obtain rfl := Option.some.inj moved
    rw [code] at sits
    cases sits with
    | @leave outer k f caller s h of ends rest =>
      refine .keep held (fun _ => ⟨?_, rfl⟩) rfl rest ?_ ?_ ?_
      · simp only [Private.step, code]
      all_goals rcases ends with rfl | ⟨rfl, after⟩ <;> simp_all

/-- The steps of a thread that do not concern the shared data. -/
def Alone (q : Private p) : Thread F A B L → Thread F A B L → Prop :=
  Relation.ReflTransGen fun t t' => q.step t = some t'

theorem Alone.holds {t t' : Thread F A B L} (alone : Alone q t t') : t'.holds = t.holds := by
  induction alone with
  | refl => rfl
  | tail _ step ih => exact (q.step_holds step).trans ih

/-! ### What is left after the section comes to an end -/

def Cmd.size : Cmd F A B → Nat
  | .seq first second => first.size + second.size + 2
  | .ite _ yes no => yes.size + no.size + 1
  | _ => 1

def codeSize : List (Item F A B L) → Nat
  | [] => 0
  | .cmd c :: k => c.size + codeSize k
  | .leave _ _ :: k => 1 + codeSize k

theorem unwind_size (k : List (Item F A B L)) : codeSize (unwind k) ≤ codeSize k := by
  induction k with
  | nil => exact Nat.le_refl 0
  | cons item k ih =>
    cases item with
    | cmd c => exact Nat.le_trans ih (Nat.le_add_left _ _)
    | leave f caller => exact Nat.le_refl _

theorem Cmd.size_pos (c : Cmd F A B) : 0 < c.size := by
  cases c <;> simp [Cmd.size]

theorem Sits.steps {post : Stage} {t : Thread F A B L} (sits : Sits q span post t.code .after)
    (more : t.code ≠ []) : ∃ t', q.step t = some t' ∧ codeSize t'.code < codeSize t.code := by
  obtain ⟨code, locals, holds⟩ := t
  dsimp only at sits more ⊢
  cases sits with
  | idle => contradiction
  | @leave outer k f caller s h of ends rest =>
    refine ⟨_, rfl, ?_⟩
    simp only [codeSize]
    omega
  | @cmd post k h c e accepted falls returns =>
    have pos := c.size_pos
    cases c with
    | skip =>
      refine ⟨_, rfl, ?_⟩
      simp only [codeSize]
      omega
    | act a =>
      simp only [follow] at accepted
      split at accepted
      · rename_i allowed
        obtain ⟨g, known⟩ := Option.isSome_iff_exists.mp (allowed.resolve_left (by decide))
        refine ⟨⟨k, g locals, holds⟩, by simp only [Private.step, known, Option.map_some], ?_⟩
        simp only [codeSize]
        omega
      · contradiction
    | ret =>
      have less := unwind_size k
      refine ⟨_, rfl, ?_⟩
      simp only [codeSize]
      omega
    | seq first second =>
      refine ⟨_, rfl, ?_⟩
      simp only [codeSize, Cmd.size]
      omega
    | ite b yes no =>
      simp only [follow] at accepted
      split at accepted
      · rename_i allowed
        obtain ⟨g, known⟩ := Option.isSome_iff_exists.mp (allowed.resolve_left (by decide))
        refine ⟨⟨.cmd (if g locals then yes else no) :: k, locals, holds⟩, by
          simp only [Private.step, known, Option.map_some], ?_⟩
        simp only [codeSize, Cmd.size]
        split <;> omega
      · contradiction
    | exchange free taken => contradiction
    | release => simp [follow] at accepted
    | loop b body => simp [follow] at accepted
    | forever body => simp [follow] at accepted
    | call f => simp [follow] at accepted

/-- A call that has given the lock back returns without the shared data. -/
theorem Sits.finishes [Inhabited W] (sound : ∀ f, q.sectioned span f = true) (d : D) {post : Stage}
    {t : Thread F A B L} (sits : Sits q span post t.code .after) (free : t.holds = false) :
    ∃ l, Alone q t ⟨[], l, false⟩ := by
  induction size : codeSize t.code using Nat.strongRecOn generalizing t post with
  | ind n ih =>
    by_cases done : t.code = []
    · obtain ⟨code, locals, holds⟩ := t
      dsimp only at done free
      subst done free
      exact ⟨locals, .refl⟩
    · obtain ⟨t', step, less⟩ := sits.steps done
      have unheld : t'.holds = false := (q.step_holds step).trans free
      have advance := sits.next sound (by simp [free]) (q.step_next step default d)
      cases advance with
      | quiet _ _ sits' _ later =>
        rw [later rfl] at sits'
        obtain ⟨l, rest⟩ := ih _ (size ▸ less) sits' unheld rfl
        exact ⟨l, .head step rest⟩
      | inside held => contradiction
      | spin start => contradiction

end Steps

end Locks
