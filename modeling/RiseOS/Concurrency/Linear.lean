import RiseOS.Concurrency.Accounts

/-! Threads that call malloc and free as they like: the calls are linearizable, their order
is a run of the sequential heap, and what the threads hold stays theirs. -/
namespace RiseOS
open Words Locks Runs

section Order

variable {Tid : Type} [DecidableEq Tid] {bitmapAt : Nat} {s : Heap}

omit [DecidableEq Tid] in
theorem serially_snoc {honest : Outcome → Heap → HeapThread → Prop} {calls : List (HeapCall Tid)}
    {c : HeapCall Tid} {s u : Heap} (serially : Serially heapProgram honest s (calls ++ [c]) u) :
    ∃ m, Serially heapProgram honest s calls m ∧
      Follows heapProgram honest (m, heapProgram.start c.fn c.args) (u, ⟨[], c.result, false⟩) := by
  induction calls generalizing s with
  | nil =>
    cases serially with
    | cons first rest =>
      cases rest with
      | nil => exact ⟨s, .nil, first⟩
  | cons b calls ih =>
    cases serially with
    | cons first rest =>
      obtain ⟨m, before, last⟩ := ih rest
      exact ⟨m, .cons first before, last⟩

/-- The client of the sequential heap that makes the calls in their order. -/
structure Sequence (bitmapAt : Nat) (s : Heap) (calls : List (HeapCall Tid)) (c : Client) : Prop where
  ran : run callStep ⟨s, []⟩ calls = some c
  allowed : Permitted callStep (CallAllowed bitmapAt) ⟨s, []⟩ calls
  inv : ∃ T F, HeapInv c T F
  below : c.heap.vmm.TablesBelow

omit [DecidableEq Tid] in
theorem Sequence.snoc {calls : List (HeapCall Tid)} {c c' : Client} (call : HeapCall Tid)
    (sequence : Sequence bitmapAt s calls c) (step : callStep c call = some c')
    (allowed : CallAllowed bitmapAt c call) (inv : ∃ T F, HeapInv c' T F) (below : c'.heap.vmm.TablesBelow) :
    Sequence bitmapAt s (calls ++ [call]) c' := by
  refine ⟨?_, ?_, inv, below⟩
  · rw [run_append, sequence.ran, Option.bind_some, run_cons, step]
    rfl
  · refine (permitted_snoc _ _ _ _ _).mpr ⟨sequence.allowed, fun u reached => ?_⟩
    rw [sequence.ran] at reached
    exact Option.some.inj reached ▸ allowed

theorem accounts_start : Accounts (fun _ : Tid => .idle) (ledger []) [] := by
  refine ⟨⟨?_, ?_⟩, fun _ => rfl, ?_⟩
  · intro p node
    refine ⟨fun live => absurd live List.not_mem_nil, ?_⟩
    rintro ⟨x, holds⟩
    cases x with
    | none => exact absurd holds List.not_mem_nil
    | some t => exact holds.elim
  · intro p node x y holds
    cases x with
    | none => exact absurd holds List.not_mem_nil
    | some t => exact holds.elim
  · intro t f args pending
    cases pending

section Effect

variable {calls : List (HeapCall Tid)} {c : Client} {status : Tid → Status HeapFn Locals}
  {g : Ledger Tid} {t : Tid} {args l : Locals} {base : Heap}
variable (sequence : Sequence bitmapAt s calls c) (accounts : Accounts status g (c.live.map Prod.fst))
include sequence accounts

/-- One more malloc in the order: its pointer is none of those that are out. -/
theorem Sequence.malloc (pending : status t = .pending .malloc args)
    (follows : Follows heapProgram (Answered bitmapAt) (c.heap, heapProgram.start .malloc args)
      (base, ⟨[], l, false⟩)) :
    ∃ c' : Client, c'.heap = base ∧ Sequence bitmapAt s (calls ++ [⟨t, .malloc, args, l⟩]) c' ∧
      Accounts (Function.update status t (.effected .malloc l)) g (c'.live.map Prod.fst) := by
  obtain ⟨T, F, inv⟩ := sequence.inv
  obtain ⟨held, plain, small⟩ := accounts.fair t .malloc args pending
  have allowed : ClientAllowed c (.malloc args.size) := small
  obtain ⟨c', step, inv'⟩ := inv.malloc (allowed.served : Served c (.malloc args.size))
  rw [plain] at follows
  have quiet : NoNewTable c (.malloc args.size) := malloc_quiet inv.ready.lock follows
  have paged := (pagedStep_eq sequence.below quiet).trans step
  obtain ⟨⟨heap, p⟩, made, rfl⟩ := Option.map_eq_some_iff.mp paged
  obtain ⟨rfl, rfl⟩ := malloc_follows made follows
  obtain ⟨T', F', invNew⟩ := inv'
  have fresh : l.result ≠ 0 → l.result ∉ c.live.map Prod.fst := by
    intro node
    have distinct := invNew.distinct
    dsimp only at distinct
    rw [if_neg node, List.map_cons, List.nodup_cons] at distinct
    exact distinct.1
  refine ⟨_, rfl, sequence.snoc ⟨t, .malloc, args, l⟩ paged
    ⟨⟨⟨allowed, trivial⟩, quiet⟩, fun _ => ⟨_, made⟩⟩ ⟨T', F', invNew⟩
    (sequence.below.step quiet step), ?_⟩
  have next := accounts.malloc pending l fresh
  dsimp only
  split at next
  · rename_i null
    rwa [if_pos null]
  · rename_i node
    rwa [if_neg node]

/-- One more free: its pointer is one that the thread has brought along. -/
theorem Sequence.free (pending : status t = .pending .free args)
    (follows : Follows heapProgram (Answered bitmapAt) (c.heap, heapProgram.start .free args)
      (base, ⟨[], l, false⟩)) :
    ∃ c' : Client, c'.heap = base ∧ Sequence bitmapAt s (calls ++ [⟨t, .free, args, l⟩]) c' ∧
      Accounts (Function.update status t (.effected .free l)) g (c'.live.map Prod.fst) := by
  obtain ⟨T, F, inv⟩ := sequence.inv
  obtain ⟨held, plain, _⟩ := accounts.fair t .free args pending
  have allowed : ClientAllowed c (.free args.p) := by
    by_cases null : args.p = 0
    · exact .inl null
    · refine .inr ((accounts.shared.live args.p null).mpr ⟨some t, ?_⟩)
      simp [Holder, pending, claims]
  obtain ⟨c', step, inv'⟩ := inv.free allowed
  have quiet : NoNewTable c (.free args.p) := trivial
  have paged := (pagedStep_eq sequence.below quiet).trans step
  obtain ⟨heap, freed, rfl⟩ := Option.map_eq_some_iff.mp paged
  rw [plain] at follows
  have spares : SparesBits bitmapAt c (.free args.p) := free_spares follows
  obtain rfl := free_follows freed follows
  have unasked : HeapFn.free ≠ .malloc := by decide
  refine ⟨_, rfl, sequence.snoc ⟨t, .free, args, l⟩ paged
    ⟨⟨⟨allowed, spares⟩, quiet⟩, fun same => absurd same unasked⟩ inv'
    (sequence.below.step quiet step), ?_⟩
  have next := accounts.free pending l
  rwa [List.filter_map] at next

end Effect

/-- A linear order of disciplined calls is a permitted run of the sequential heap, and the
blocks that are out are those that the threads hold. -/
theorem sequence_of_linear {events : List (HeapEvent Tid)} {calls : List (HeapCall Tid)}
    {status : Tid → Status HeapFn Locals} (start : s.BootedPaged) (linear : Linear events calls status)
    (disciplined : Disciplined events) {base : Heap}
    (serially : Serially heapProgram (Answered bitmapAt) s calls base) :
    ∃ c : Client, c.heap = base ∧ Sequence bitmapAt s calls c ∧
      Accounts status (ledger events) (c.live.map Prod.fst) := by
  induction linear generalizing base with
  | start =>
    cases serially with
    | nil => exact ⟨⟨s, []⟩, rfl, ⟨rfl, trivial, ⟨∅, ∅, booted_inv start.toBooted⟩, start.below⟩, accounts_start⟩
  | @began events calls status t f args before idle ih =>
    obtain ⟨earlier, fair⟩ := disciplined_snoc disciplined
    obtain ⟨c, same, sequence, accounts⟩ := ih earlier serially
    rw [ledger_snoc]
    exact ⟨c, same, sequence, accounts.began idle fair⟩
  | @effect events calls status t f args l before pending ih =>
    obtain ⟨m, earlier, follows⟩ := serially_snoc serially
    obtain ⟨c, rfl, sequence, accounts⟩ := ih disciplined earlier
    cases f with
    | malloc => exact sequence.malloc accounts pending follows
    | free => exact sequence.free accounts pending follows
    | _ =>
      obtain ⟨held, fair⟩ := accounts.fair t _ args pending
      exact fair.elim
  | @ended events calls status t f l before effected ih =>
    obtain ⟨c, same, sequence, accounts⟩ := ih (disciplined_snoc disciplined).1 serially
    rw [ledger_snoc]
    exact ⟨c, same, sequence, accounts.ended effected⟩

end Order

section Threads

variable {Tid : Type} [DecidableEq Tid] {s : Heap}

/-- All that is known of a run of the threads: the calls in a linear order, and the client
of the sequential heap that makes them. -/
theorem threads_explained (bitmapAt : Nat) (start : s.BootedPaged) (l : Tid → Locals)
    (schedule : List (Tid × Move HeapFn Locals Outcome)) {m : HeapMachine Tid}
    (allowed : Permitted heapProgram.step (Allowed heapSpan (Answered bitmapAt))
      (idleMachine Tid s l) schedule)
    (disciplined : Disciplined (history heapProgram (idleMachine Tid s l) schedule))
    (ran : run heapProgram.step (idleMachine Tid s l) schedule = some m) :
    ∃ calls status c, Linear (history heapProgram (idleMachine Tid s l) schedule) calls status ∧
      Sequence bitmapAt s calls c ∧
      Accounts status (ledger (history heapProgram (idleMachine Tid s l) schedule))
        (c.live.map Prod.fst) ∧ (m.data.lock = 0 → c.heap = m.data) ∧
      ∀ t, status t = .idle ↔ (m.thread t).code = [] := by
  have : Inhabited Outcome := ⟨⟨s.mem, s.vmm, 0⟩⟩
  obtain ⟨calls, status, base, linear, serially, same, idle⟩ :=
    linearizable heap_meets heap_sectioned (fun _ => rfl) (quiet_answered bitmapAt)
      (idleMachine Tid s l) rfl (fun _ => ⟨rfl, rfl⟩) schedule allowed ran
  have data : (idleMachine Tid s l).data = s := by
    unfold idleMachine
    rw [← start.lock]
  rw [data] at serially
  obtain ⟨c, rfl, sequence, accounts⟩ := sequence_of_linear start linear disciplined serially
  exact ⟨calls, status, c, linear, sequence, accounts, same, idle⟩

/-- malloc and free are linearizable as long as no call needs a new page table and the clears
of liballoc_free spare the heap: however any number of threads interleave their calls, each
call takes effect at one moment between its beginning and its end, the calls in the order of
these moments are a run of malloc and free as functions with the same results, and whenever
the lock is free the heap is the one that this run leaves. -/
theorem heap_linearizable (bitmapAt : Nat) (start : s.BootedPaged) (l : Tid → Locals)
    (schedule : List (Tid × Move HeapFn Locals Outcome)) {m : HeapMachine Tid}
    (allowed : Permitted heapProgram.step (Allowed heapSpan (Answered bitmapAt))
      (idleMachine Tid s l) schedule)
    (disciplined : Disciplined (history heapProgram (idleMachine Tid s l) schedule))
    (ran : run heapProgram.step (idleMachine Tid s l) schedule = some m) :
    ∃ calls status c, Linear (history heapProgram (idleMachine Tid s l) schedule) calls status ∧
      run callStep ⟨s, []⟩ calls = some c ∧ Permitted callStep (CallAllowed bitmapAt) ⟨s, []⟩ calls ∧
      (m.data.lock = 0 → c.heap = m.data) ∧
      ∀ t, status t = .idle ↔ (m.thread t).code = [] := by
  obtain ⟨calls, status, c, linear, sequence, _, same, idle⟩ :=
    threads_explained bitmapAt start l schedule allowed disciplined ran
  exact ⟨calls, status, c, linear, sequence.ran, sequence.allowed, same, idle⟩

def goes (t : Bool) (count : Nat) : List (Bool × Move HeapFn Locals Outcome) :=
  List.replicate count (t, .go ⟨heapAt3M.mem, heapAt3M.vmm, 0⟩)

/-- One thread is in the section of its malloc when the other comes and goes with a free of
NULL, calls malloc too and waits for the lock. -/
def contended : List (Bool × Move HeapFn Locals Outcome) :=
  (true, .begin .malloc { size := 8 }) :: goes true 16 ++ (false, .begin .free {}) :: goes false 3 ++
    (false, .begin .malloc { size := 100 }) :: goes false 9 ++ goes true 4

/-- The call is malloc or free, or the step calls no hook. -/
def quietMove (m : HeapMachine Bool) : Bool × Move HeapFn Locals Outcome → Bool
  | (_, .begin f _) => f = .malloc ∨ f = .free
  | (t, .go _) =>
    match (m.thread t).code with
    | .cmd (.act .allocateNewTag) :: _ | .cmd (.act .liballocFree) :: _ => false
    | _ => true

theorem quietMove_allowed (m : HeapMachine Bool) (move : Bool × Move HeapFn Locals Outcome)
    (quiet : quietMove m move = true) : Allowed heapSpan (Answered bitmapAt3M) m move := by
  obtain ⟨t, move⟩ := move
  cases move with
  | begin f args =>
    rcases of_decide_eq_true quiet with rfl | rfl
    · rfl
    · rfl
  | go w =>
    simp only [quietMove] at quiet
    simp only [Allowed, Answered]
    split
    · simp_all
    · simp_all
    · trivial

theorem contended_runs :
    ∃ m, run heapProgram.step (idleMachine Bool heapAt3M fun _ => {}) contended = some m :=
  Option.isSome_iff_exists.mp (by decide +kernel)

theorem contended_allowed : Permitted heapProgram.step (Allowed heapSpan (Answered bitmapAt3M))
    (idleMachine Bool heapAt3M fun _ => {}) contended := by
  have quiet : Permitted heapProgram.step (fun m move => quietMove m move = true)
      (idleMachine Bool heapAt3M fun _ => {}) contended := by decide +kernel
  exact quiet.mono quietMove_allowed

theorem contended_disciplined :
    Disciplined (history heapProgram (idleMachine Bool heapAt3M fun _ => {}) contended) := by
  decide +kernel

theorem contended_linearizable : ∃ m,
    run heapProgram.step (idleMachine Bool heapAt3M fun _ => {}) contended = some m ∧
    ∃ calls status c,
      Linear (history heapProgram (idleMachine Bool heapAt3M fun _ => {}) contended) calls status ∧
      run callStep ⟨heapAt3M, []⟩ calls = some c ∧
      Permitted callStep (CallAllowed bitmapAt3M) ⟨heapAt3M, []⟩ calls ∧
      (m.data.lock = 0 → c.heap = m.data) ∧ ∀ t, status t = .idle ↔ (m.thread t).code = [] := by
  obtain ⟨m, ran⟩ := contended_runs
  exact ⟨m, ran, heap_linearizable bitmapAt3M heapAt3M_paged (fun _ => {}) contended contended_allowed
    contended_disciplined ran⟩

/-- Ownership across threads: in every state of every such interleaving the blocks that are
out lie apart from each other, from every tag and inside the chunks, every pointer that the
threads hold is the pointer of one of them, and when no call is running they hold all of
them. -/
theorem threads_own (bitmapAt : Nat) (start : s.BootedPaged) (l : Tid → Locals)
    (schedule : List (Tid × Move HeapFn Locals Outcome)) {m : HeapMachine Tid}
    (allowed : Permitted heapProgram.step (Allowed heapSpan (Answered bitmapAt))
      (idleMachine Tid s l) schedule)
    (disciplined : Disciplined (history heapProgram (idleMachine Tid s l) schedule))
    (ran : run heapProgram.step (idleMachine Tid s l) schedule = some m) :
    ∃ c : Client, Owned c ∧ (m.data.lock = 0 → c.heap = m.data) ∧
      (∀ p ∈ (ledger (history heapProgram (idleMachine Tid s l) schedule)).held,
        p ≠ 0 → p ∈ c.live.map Prod.fst) ∧
      ((∀ t, (m.thread t).code = []) → ∀ p ∈ c.live.map Prod.fst,
        p ∈ (ledger (history heapProgram (idleMachine Tid s l) schedule)).held) := by
  obtain ⟨calls, status, c, _, sequence, accounts, same, idle⟩ :=
    threads_explained bitmapAt start l schedule allowed disciplined ran
  obtain ⟨T, F, inv⟩ := sequence.inv
  refine ⟨c, inv.owned, same, ?_, ?_⟩
  · intro p held node
    exact (accounts.shared.live p node).mpr ⟨none, held⟩
  · intro quiet p live
    obtain ⟨b, mem, rfl⟩ := List.mem_map.mp live
    obtain ⟨x, holds⟩ := (accounts.shared.live b.1 (inv.inUse b mem).nonnull).mp live
    cases x with
    | none => exact holds
    | some t =>
      simp only [Holder, (idle t).mpr (quiet t), claims] at holds

theorem contended_own : ∃ m,
    run heapProgram.step (idleMachine Bool heapAt3M fun _ => {}) contended = some m ∧
    ∃ c : Client, Owned c ∧ (m.data.lock = 0 → c.heap = m.data) ∧
      (∀ p ∈ (ledger (history heapProgram (idleMachine Bool heapAt3M fun _ => {}) contended)).held,
        p ≠ 0 → p ∈ c.live.map Prod.fst) ∧
      ((∀ t, (m.thread t).code = []) → ∀ p ∈ c.live.map Prod.fst,
        p ∈ (ledger (history heapProgram (idleMachine Bool heapAt3M fun _ => {}) contended)).held) := by
  obtain ⟨m, ran⟩ := contended_runs
  exact ⟨m, ran, threads_own bitmapAt3M heapAt3M_paged (fun _ => {}) contended contended_allowed
    contended_disciplined ran⟩

end Threads

end RiseOS
