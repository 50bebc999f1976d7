import RiseOS.Concurrency.Sequential
import RiseOS.Heap.Exclusive
import RiseOS.Library.Linearize

/-! malloc and free as calls with one section: alone, a call does what the function does.
What the threads hold, and which calls are fair, is read off the beginnings and ends. -/
namespace RiseOS
open Words Locks Runs

deriving instance DecidableEq for Locals

/-- Before and after its section a call looks at its locals only. -/
def heapPrivate : Private heapProgram where
  act
    | .returnNull => some fun l => { l with result := 0 }
    | .returnPtr => some fun l => { l with result := l.ptr }
    | _ => none
  test
    | .ptrNull => some fun l => decide (l.p = 0)
    | _ => none
  act_eq := by
    intro a g known w d l
    cases a
    case returnNull => exact Option.some.inj known ▸ rfl
    case returnPtr => exact Option.some.inj known ▸ rfl
    all_goals contradiction
  test_eq := by
    intro b g known d l
    cases b
    case ptrNull => exact Option.some.inj known ▸ rfl
    all_goals contradiction

/-- malloc and free have one section each. realloc has three, and copies outside of them. -/
def heapSpan : HeapFn → Option Span
  | .spinLock | .liballocLock => some ⟨.before, .inside⟩
  | .spinUnlock | .liballocUnlock => some ⟨.inside, .after⟩
  | .malloc | .free => some ⟨.before, .after⟩
  | .realloc => none

theorem heap_sectioned (f : HeapFn) : heapPrivate.sectioned heapSpan f = true := by
  cases f <;> decide

theorem quiet_answered (bitmapAt : Nat) (s : Heap) (x x' : HeapThread)
    (quiet : heapPrivate.step x = some x') : ∃ w, Answered bitmapAt w s x := by
  refine ⟨⟨s.mem, s.vmm, 0⟩, ?_⟩
  unfold Answered
  split
  · rename_i asks
    simp only [Private.step, asks] at quiet
    contradiction
  · rename_i gives
    simp only [Private.step, gives] at quiet
    contradiction
  · trivial

section Function

variable {bitmapAt : Nat} {s s' u : Heap} {l : Locals}

theorem follows_hooked {x y : Heap × HeapThread}
    (follows : Follows heapProgram (Answered bitmapAt) x y) : Reaches hookedProgram x y := by
  obtain ⟨ws, ran, allowed⟩ := follows
  induction ws generalizing x with
  | nil =>
    obtain rfl := Option.some.inj ran
    exact .refl _ _
  | cons w rest ih =>
    obtain ⟨x', moved, later⟩ := Option.bind_eq_some_iff.mp ran
    refine .step () ?_ (ih later (allowed.2 x' moved))
    unfold solo at moved ⊢
    rw [← next_answered allowed.1]
    exact moved

/-- A call that runs alone does what the function does. -/
theorem follows_unique (f : HeapFn) {args l' : Locals} {r : Bool}
    (ends : Ends hookedProgram f.body (s, args, false) (u, l', false) r)
    (follows : Follows heapProgram (Answered bitmapAt) (s, heapProgram.start f args)
      (s', ⟨[], l, false⟩)) : s' = u ∧ l = l' := by
  have done : (if r = true then unwind [] else []) = ([] : List (Item HeapFn HeapAct HeapTest Locals)) := by
    cases r <;> rfl
  have reached := ends.reaches []
  rw [done] at reached
  have same := (follows_hooked follows).unique reached rfl rfl
  simp only [Local.with, Prod.mk.injEq, Thread.mk.injEq] at same
  exact ⟨same.1, same.2.2.1⟩

/-- A call that runs alone passes through every state that it reaches with the hooks put in. -/
theorem follows_through {x y z : Heap × HeapThread}
    (follows : Follows heapProgram (Answered bitmapAt) x y) (done : y.2.code = [])
    (reaches : Reaches hookedProgram x z) : Follows heapProgram (Answered bitmapAt) z y := by
  obtain ⟨ws, ran, allowed⟩ := follows
  obtain ⟨vs, reached⟩ := reaches
  induction vs generalizing x ws with
  | nil =>
    obtain rfl := Option.some.inj reached
    exact ⟨ws, ran, allowed⟩
  | cons v vs ih =>
    obtain ⟨u, moved, later⟩ := Option.bind_eq_some_iff.mp reached
    cases ws with
    | nil =>
      obtain rfl := Option.some.inj ran
      simp [solo, Program.next, done] at moved
    | cons w ws =>
      have same : solo heapProgram x w = some u := by
        unfold solo at moved ⊢
        rw [next_answered allowed.1]
        exact moved
      rw [Runs.run_cons, same, Option.bind_some] at ran
      exact ih ws ran (allowed.2 u same) later

/-- malloc with no tag in its list comes to the call of liballoc_alloc. -/
theorem malloc_asks {size : Nat} (free : s.lock = 0)
    (searched : s.entered.search size loopFuel (s.entered.freePages (bucket size)) = some 0) :
    ∃ k, Reaches hookedProgram (s, heapProgram.start .malloc { size := size })
      (Local.with (s.entered, { size := size, index := bucket size }, true)
        (.cmd (.act .allocateNewTag) :: k)) :=
  ⟨_, .trans ((liballocLock_ends free).first []) (.trans
    ((initialize_ends (entered_eq s)).first []) (.trans ((Ends.act ()).first []) (.trans
      ((Ends.act ()).first []) (.trans ((searching_ends searched).first [])
        (.step () rfl (.step () rfl (.step () rfl (.refl _ _))))))))⟩

/-- A malloc that runs alone needs no page table. -/
theorem malloc_quiet {size : Nat} (free : s.lock = 0)
    (follows : Follows heapProgram (Answered bitmapAt) (s, heapProgram.start .malloc { size := size })
      (s', ⟨[], l, false⟩)) : s.NeedsNoTable size := by
  intro searched
  obtain ⟨k, reaches⟩ := malloc_asks free searched
  obtain ⟨ws, ran, allowed⟩ := follows_through follows rfl reaches
  cases ws with
  | nil => cases ran
  | cons w ws =>
    have tabled : s.entered.vmm.NeedsNoTable (newTagPages size) := allowed.1.1
    rwa [entered_vmm] at tabled

/-- free of a chunk that goes back comes to the call of liballoc_free. -/
theorem free_asks {p : Nat} {m : Heap} {tag pages : Nat} (node : p ≠ 0)
    (back : HandsBack s p m tag pages) : ∃ i k,
    Reaches hookedProgram (s, heapProgram.start .free { p := p })
      (Local.with (m, { p := p, tag := tag, index := i }, true)
        (.cmd (.act .liballocFree) :: k)) := by
  obtain ⟨⟨u, t⟩, melted, rest⟩ := Option.bind_eq_some_iff.mp back.melted
  obtain ⟨v, absorbed, same⟩ := Option.map_eq_some_iff.mp rest
  obtain ⟨rfl, rfl⟩ := Prod.mk.inj same
  let first : Locals := { p := p, tag := wsub p sizeofTag }
  let left : Locals := { p := p, tag := t }
  let chosen : Locals := { left with index := bucket (wsub (v.get .realSize t) sizeofTag) }
  have front : Ends hookedProgram (.ite .ptrNull .ret .skip) (s, { p := p }, false)
      (s, { p := p }, false) false := .no (decide_eq_false node) .skip
  have pointed : Ends hookedProgram (.act .tagOfPtr) ({ s with lock := 1 }, { p := p }, true)
      ({ s with lock := 1 }, first, true) false := .act_eq (w := ()) rfl
  have valid : Ends hookedProgram (.ite .badMagic (.block [.call .liballocUnlock, .ret]) .skip)
      ({ s with lock := 1 }, first, true) ({ s with lock := 1 }, first, true) false :=
    .no (decide_eq_false (not_not.mpr back.magic)) .skip
  have listed : Ends hookedProgram (.act .realIndex) (v, left, true) (v, chosen, true) false :=
    .act_eq (w := ()) rfl
  have whole : hookedProgram.test .complete v chosen = true := complete_holds back.complete
  have full : hookedProgram.test .full v chosen = true := decide_eq_true back.full
  exact ⟨_, _, .trans (front.first []) (.trans ((liballocLock_ends back.unlocked).first []) (.trans
    (pointed.first []) (.trans (valid.first []) (.trans ((meltLoop_ends melted).first []) (.trans
      ((absorbLoop_ends (l := left) absorbed).first []) (.trans (listed.first []) (.step () rfl
        (.trans (.yes (s := (v, chosen, true)) whole _) (.step () rfl
          (.trans (.yes (s := (v, chosen, true)) full _) (.step () rfl (.refl _ _))))))))))))⟩

/-- The clears of a free that runs alone spare the heap. -/
theorem free_spares {p : Nat}
    (follows : Follows heapProgram (Answered bitmapAt) (s, heapProgram.start .free { p := p })
      (s', ⟨[], l, false⟩)) : s.FreeSpares bitmapAt p := by
  intro node m tag pages back
  obtain ⟨i, k, reaches⟩ := free_asks node back
  obtain ⟨ws, ran, allowed⟩ := follows_through follows rfl reaches
  cases ws with
  | nil => cases ran
  | cons w ws =>
    rw [back.asked]
    exact allowed.1.1

theorem malloc_follows {size p : Nat} (call : s.malloc size .aliased = some (u, p))
    (follows : Follows heapProgram (Answered bitmapAt) (s, heapProgram.start .malloc { size := size })
      (s', ⟨[], l, false⟩)) : s' = u ∧ l.result = p := by
  obtain ⟨l', ends, result⟩ := malloc_ends call
  obtain ⟨same, rfl⟩ := follows_unique .malloc ends follows
  exact ⟨same, result⟩

theorem free_follows {p : Nat} (call : s.free p .aliased = some u)
    (follows : Follows heapProgram (Answered bitmapAt) (s, heapProgram.start .free { p := p })
      (s', ⟨[], l, false⟩)) : s' = u := by
  obtain ⟨l', r, ends⟩ := free_ends call
  exact (follows_unique .free ends follows).1

end Function

/-! ### What the threads hold -/

abbrev HeapEvent (Tid : Type) := Locks.Event Tid HeapFn Locals

/-- The function that each thread is in, and the pointers that malloc returned to a thread
and no thread has passed to free. -/
structure Ledger (Tid : Type) where
  calls : Tid → Option HeapFn
  held : List Nat

section Discipline

variable {Tid : Type} [DecidableEq Tid]

def Ledger.note (g : Ledger Tid) : HeapEvent Tid → Ledger Tid
  | .began t f args =>
      { calls := Function.update g.calls t (some f)
        held := if f = .free then g.held.filter (· ≠ args.p) else g.held }
  | .ended t l =>
      { calls := Function.update g.calls t none
        held := if g.calls t = some .malloc ∧ l.result ≠ 0 then l.result :: g.held else g.held }

def ledger (events : List (HeapEvent Tid)) : Ledger Tid :=
  events.foldl Ledger.note ⟨fun _ => none, []⟩

/-- A size up to HEAP_SIZE for malloc, and for free NULL or a pointer that is held. -/
def Fair (held : List Nat) : HeapFn → Locals → Prop
  | .malloc, args => args = { size := args.size } ∧ args.size ≤ heapSize
  | .free, args => args = { p := args.p } ∧ (args.p = 0 ∨ args.p ∈ held)
  | _, _ => False

instance : ∀ held f args, Decidable (Fair held f args)
  | _, .malloc, args => inferInstanceAs (Decidable (args = _ ∧ args.size ≤ heapSize))
  | held, .free, args => inferInstanceAs (Decidable (args = _ ∧ (args.p = 0 ∨ args.p ∈ held)))
  | _, .realloc, _ | _, .spinLock, _ | _, .spinUnlock, _ | _, .liballocLock, _
  | _, .liballocUnlock, _ => isFalse id

/-- Every call is fair when it begins. A pointer may go from thread to thread. -/
def FairEvent (g : Ledger Tid) : HeapEvent Tid → Prop
  | .began _ f args => Fair g.held f args
  | .ended _ _ => True

instance (g : Ledger Tid) : ∀ e, Decidable (FairEvent g e)
  | .began _ f args => inferInstanceAs (Decidable (Fair g.held f args))
  | .ended _ _ => isTrue trivial

def Disciplined (events : List (HeapEvent Tid)) : Prop :=
  Permitted (fun g e => some (Ledger.note g e)) FairEvent ⟨fun _ => none, []⟩ events

instance (events : List (HeapEvent Tid)) : Decidable (Disciplined events) :=
  inferInstanceAs (Decidable (Permitted _ _ _ _))

theorem ledger_run (events : List (HeapEvent Tid)) :
    run (fun g e => some (Ledger.note g e)) ⟨fun _ => none, []⟩ events = some (ledger events) := by
  unfold ledger
  generalize (⟨fun _ => none, []⟩ : Ledger Tid) = g
  induction events generalizing g with
  | nil => rfl
  | cons e rest ih => exact ih (g.note e)

theorem ledger_snoc (events : List (HeapEvent Tid)) (e : HeapEvent Tid) :
    ledger (events ++ [e]) = (ledger events).note e := by
  simp [ledger]

theorem disciplined_snoc {events : List (HeapEvent Tid)} {e : HeapEvent Tid}
    (disciplined : Disciplined (events ++ [e])) :
    Disciplined events ∧ FairEvent (ledger events) e := by
  obtain ⟨before, last⟩ := (permitted_snoc _ _ _ events e).mp disciplined
  exact ⟨before, last _ (ledger_run events)⟩

end Discipline

abbrev HeapCall (Tid : Type) := Call Tid HeapFn Locals

/-- The call as a step of the sequential heap. -/
def clientOp {Tid : Type} (c : HeapCall Tid) : ClientOp :=
  match c.fn with
  | .malloc => .malloc c.args.size
  | _ => .free c.args.p

def callStep {Tid : Type} (s : Client) (c : HeapCall Tid) : Option Client := pagedStep s (clientOp c)

/-- The call is one that the sequential heap allows, makes no page table and spares the heap,
and malloc returns what it returned. -/
def CallAllowed {Tid : Type} (bitmapAt : Nat) (s : Client) (c : HeapCall Tid) : Prop :=
  QuietAllowed bitmapAt s (clientOp c) ∧
    (c.fn = .malloc → ∃ heap, s.heap.malloc c.args.size .aliased = some (heap, c.result.result))

end RiseOS
