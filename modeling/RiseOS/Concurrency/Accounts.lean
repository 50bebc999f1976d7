import RiseOS.Concurrency.Atomic

/-! Every pointer that is out has one holder: the threads in common, a call that is to free
it, or a call that is to return it. -/
namespace RiseOS
open Words Locks Runs

section Holders

variable {O : Type} {who who' : O → Nat → Prop} {live : List Nat} {p : Nat}

/-- `who` holds the pointers of a list, and no two hold the same. -/
structure Shared (who : O → Nat → Prop) (live : List Nat) : Prop where
  live : ∀ p, p ≠ 0 → (p ∈ live ↔ ∃ x, who x p)
  one : ∀ p, p ≠ 0 → ∀ x y, who x p → who y p → x = y

theorem Shared.congr (h : Shared who live) (same : ∀ x r, r ≠ 0 → (who' x r ↔ who x r)) :
    Shared who' live := by
  constructor
  · intro r node
    simp only [same _ r node]
    exact h.live r node
  · intro r node x y hx hy
    exact h.one r node x y ((same x r node).mp hx) ((same y r node).mp hy)

theorem Shared.move (h : Shared who live) {x y : O} (from_ : p ≠ 0 → who x p)
    (now : ∀ z r, r ≠ 0 → (who' z r ↔ who z r ∧ ¬ (z = x ∧ r = p) ∨ z = y ∧ r = p)) :
    Shared who' live := by
  constructor
  · intro r node
    simp only [now _ r node]
    rw [h.live r node]
    constructor
    · rintro ⟨z, holds⟩
      by_cases moved : z = x ∧ r = p
      · exact ⟨y, .inr ⟨rfl, moved.2⟩⟩
      · exact ⟨z, .inl ⟨holds, moved⟩⟩
    · rintro ⟨z, ⟨holds, _⟩ | ⟨_, rfl⟩⟩
      · exact ⟨z, holds⟩
      · exact ⟨x, from_ node⟩
  · intro r node a b ha hb
    rw [now _ r node] at ha hb
    have one := h.one r node
    grind

theorem Shared.add (h : Shared who live) {y : O} (fresh : p ∉ live)
    (now : ∀ z r, r ≠ 0 → (who' z r ↔ who z r ∨ z = y ∧ r = p)) : Shared who' (p :: live) := by
  constructor
  · intro r node
    simp only [now _ r node, List.mem_cons, h.live r node]
    constructor
    · rintro (rfl | ⟨z, holds⟩)
      · exact ⟨y, .inr ⟨rfl, rfl⟩⟩
      · exact ⟨z, .inl holds⟩
    · rintro ⟨z, holds | ⟨_, rfl⟩⟩
      · exact .inr ⟨z, holds⟩
      · exact .inl rfl
  · intro r node a b ha hb
    rw [now _ r node] at ha hb
    have one := h.one r node
    have out : ∀ z, who z r → r ∈ live := fun z holds => (h.live r node).mpr ⟨z, holds⟩
    grind

theorem Shared.drop (h : Shared who live) (now : ∀ z r, r ≠ 0 → (who' z r ↔ who z r ∧ r ≠ p)) :
    Shared who' (live.filter (· ≠ p)) := by
  constructor
  · intro r node
    simp only [now _ r node, List.mem_filter, h.live r node]
    constructor
    · rintro ⟨⟨z, holds⟩, other⟩
      exact ⟨z, holds, by simpa using other⟩
    · rintro ⟨z, holds, other⟩
      exact ⟨⟨z, holds⟩, by simpa using other⟩
  · intro r node a b ha hb
    rw [now _ r node] at ha hb
    exact h.one r node a b ha.1 hb.1

end Holders

section Accounts

variable {Tid : Type} [DecidableEq Tid]

def claims : Status HeapFn Locals → Nat → Prop
  | .pending .free args, p => args.p = p
  | .effected .malloc l, p => l.result = p
  | _, _ => False

/-- The threads hold in common what malloc returned; a call holds what it is to free, and
what it is to return. -/
def Holder (status : Tid → Status HeapFn Locals) (held : List Nat) : Option Tid → Nat → Prop
  | none, p => p ∈ held
  | some t, p => claims (status t) p

def statusFn : Status HeapFn Locals → Option HeapFn
  | .idle => none
  | .pending f _ => some f
  | .effected f _ => some f

structure Accounts (status : Tid → Status HeapFn Locals) (g : Ledger Tid) (live : List Nat) : Prop where
  shared : Shared (Holder status g.held) live
  known : ∀ t, g.calls t = statusFn (status t)
  fair : ∀ t f args, status t = .pending f args → ∃ held, Fair held f args

variable {status : Tid → Status HeapFn Locals} {g : Ledger Tid} {live : List Nat} {t : Tid}

theorem holder_update (st : Status HeapFn Locals) (held : List Nat) (x : Option Tid) (r : Nat) :
    Holder (Function.update status t st) held x r ↔
      if x = some t then claims st r else Holder status held x r := by
  cases x with
  | none => simp [Holder]
  | some u =>
    by_cases same : u = t
    · subst same
      simp [Holder]
    · simp [Holder, same]

theorem known_update (acc : ∀ t, g.calls t = statusFn (status t)) (st : Status HeapFn Locals) (u : Tid) :
    Function.update g.calls t (statusFn st) u = statusFn (Function.update status t st u) := by
  by_cases same : u = t
  · subst same
    simp
  · simp [same, acc u]

theorem Accounts.began (acc : Accounts status g live) (idle : status t = .idle) {f : HeapFn}
    {args : Locals} (fair : Fair g.held f args) :
    Accounts (Function.update status t (.pending f args)) (g.note (.began t f args)) live := by
  have unclaimed : ∀ r, ¬ Holder status g.held (some t) r := by
    intro r
    simp [Holder, idle, claims]
  refine ⟨?_, known_update acc.known (.pending f args), ?_⟩
  · cases f with
    | malloc =>
      refine acc.shared.congr fun x r node => ?_
      simp only [Ledger.note, reduceCtorEq, if_false]
      rw [holder_update]
      have := unclaimed r
      grind [claims]
    | free =>
      refine acc.shared.move (p := args.p) (x := none) (y := some t)
        (fun node => fair.2.resolve_left node) ?_
      intro x r node
      rw [holder_update]
      have := unclaimed r
      cases x with
      | none => simp [Ledger.note, Holder]
      | some u => grind [claims, Ledger.note, Holder]
    | _ => exact fair.elim
  · intro u f' args' pending
    by_cases same : u = t
    · subst same
      simp only [Function.update_self, Status.pending.injEq] at pending
      obtain ⟨rfl, rfl⟩ := pending
      exact ⟨g.held, fair⟩
    · rw [Function.update_of_ne same] at pending
      exact acc.fair u f' args' pending

theorem Accounts.effect (acc : Accounts status g live) {f : HeapFn} {args : Locals}
    (pending : status t = .pending f args) (l : Locals) {live' : List Nat}
    (shared : Shared (Holder (Function.update status t (.effected f l)) g.held) live') :
    Accounts (Function.update status t (.effected f l)) g live' := by
  refine ⟨shared, ?_, ?_⟩
  · intro u
    rw [acc.known u]
    by_cases same : u = t
    · subst same
      simp [pending, statusFn]
    · simp [same]
  · intro u f' args' waiting
    by_cases same : u = t
    · subst same
      simp at waiting
    · rw [Function.update_of_ne same] at waiting
      exact acc.fair u f' args' waiting

theorem Accounts.malloc (acc : Accounts status g live) {args : Locals}
    (pending : status t = .pending .malloc args) (l : Locals)
    (fresh : l.result ≠ 0 → l.result ∉ live) :
    Accounts (Function.update status t (.effected .malloc l)) g
      (if l.result = 0 then live else l.result :: live) := by
  refine acc.effect pending l ?_
  have unclaimed : ∀ r, ¬ Holder status g.held (some t) r := by
    intro r
    simp [Holder, pending, claims]
  split
  · rename_i null
    refine acc.shared.congr fun x r node => ?_
    rw [holder_update]
    have := unclaimed r
    grind [claims]
  · rename_i node
    refine acc.shared.add (fresh node) (y := some t) fun x r _ => ?_
    rw [holder_update]
    have := unclaimed r
    grind [claims]

theorem Accounts.free (acc : Accounts status g live) {args : Locals}
    (pending : status t = .pending .free args) (l : Locals) :
    Accounts (Function.update status t (.effected .free l)) g (live.filter (· ≠ args.p)) := by
  refine acc.effect pending l (acc.shared.drop fun x r node => ?_)
  have claimed : ∀ r, Holder status g.held (some t) r ↔ args.p = r := by
    intro r
    simp [Holder, pending, claims]
  have one := acc.shared.one r node
  rw [holder_update]
  have := claimed r
  grind [claims]

theorem Accounts.ended (acc : Accounts status g live) {f : HeapFn} {l : Locals}
    (effected : status t = .effected f l) :
    Accounts (Function.update status t .idle) (g.note (.ended t l)) live := by
  have inside : g.calls t = some f := by
    rw [acc.known t, effected]
    rfl
  refine ⟨?_, known_update acc.known .idle, ?_⟩
  · by_cases made : f = .malloc
    · subst made
      refine acc.shared.move (p := l.result) (x := some t) (y := none) (fun _ => ?_) ?_
      · simp [Holder, effected, claims]
      · intro x r node
        rw [holder_update]
        have claimed : Holder status g.held (some t) r ↔ l.result = r := by
          simp [Holder, effected, claims]
        cases x with
        | none => grind [Ledger.note, Holder]
        | some u => grind [claims, Ledger.note, Holder]
    · refine acc.shared.congr fun x r node => ?_
      rw [holder_update]
      have claimed : ¬ Holder status g.held (some t) r := by
        cases f <;> simp_all [Holder, claims]
      cases x with
      | none => grind [Ledger.note, Holder]
      | some u => grind [claims, Ledger.note, Holder]
  · intro u f' args' waiting
    by_cases same : u = t
    · subst same
      simp at waiting
    · rw [Function.update_of_ne same] at waiting
      exact acc.fair u f' args' waiting

end Accounts

end RiseOS
