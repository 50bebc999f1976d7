import RiseOS.Library.Linear

/-! The order of calls that explains a run grows with the run: a call comes into it when its
section is over, and the thread inside a section is alone with the data. -/
namespace Locks

variable {Tid F A B D L W : Type}

/-- A call in the order, and how far its thread has come. -/
structure Record (Tid F A B L : Type) where
  thread : Tid
  fn : F
  args : L
  now : Thread F A B L

/-- The call as it will be known; what it returns is a guess as long as it runs. -/
def Record.call (guess : Tid → L) (c : Record Tid F A B L) : Call Tid F L :=
  ⟨c.thread, c.fn, c.args, if c.now.code.isEmpty then c.now.locals else guess c.thread⟩

inductive Phase (F L : Type) where
  | idle
  | pending (f : F) (args : L)
  | effected (f : F)

def Phase.status (result : L) : Phase F L → Status F L
  | .idle => .idle
  | .pending f args => .pending f args
  | .effected f => .effected f result

/-- The data after the sections of the calls, in their order. -/
inductive Served (p : Program F A B D L W) (honest : W → D → Thread F A B L → Prop) :
    D → List (Record Tid F A B L) → D → Prop where
  | nil {d} : Served p honest d [] d
  | cons {d d' d'' c hist} (first : Follows p honest (d, p.start c.fn c.args) (d', c.now))
      (rest : Served p honest d' hist d'') : Served p honest d (c :: hist) d''

/-- All calls of thread `t` have come back, but for the one at place `but`. -/
def Settled (t : Tid) (hist : List (Record Tid F A B L)) (but : Option Nat) : Prop :=
  ∀ i c, hist[i]? = some c → c.thread = t → some i ≠ but → c.now.code = [] ∧ c.now.holds = false

/-- How a thread stands to the order of calls: `base` is the data after them, `d` the data
now. A call comes into the order when its section is over. -/
inductive Stands {p : Program F A B D L W} (q : Private p) (span : F → Option Span)
    (honest : W → D → Thread F A B L → Prop) (hist : List (Record Tid F A B L)) (base d : D)
    (t : Tid) (x : Thread F A B L) : Phase F L → Prop where
  | idle (done : x.code = []) (free : x.holds = false) (settled : Settled t hist none) :
      Stands q span honest hist base d t x .idle
  | pending {f args} (approach : Approach q span (p.start f args) x) (more : x.code ≠ [])
      (settled : Settled t hist none) : Stands q span honest hist base d t x (.pending f args)
  | inside {f args post} (follows : Follows p honest (base, p.start f args) (d, x))
      (sits : Sits q span post x.code .inside) (holds : x.holds = true)
      (settled : Settled t hist none) : Stands q span honest hist base d t x (.pending f args)
  | effected {f post} (args : L) (i : Nat) (here : hist[i]? = some ⟨t, f, args, x⟩)
      (more : x.code ≠ []) (sits : Sits q span post x.code .after) (free : x.holds = false)
      (settled : Settled t hist (some i)) : Stands q span honest hist base d t x (.effected f)

structure Linearized [DecidableEq Tid] {p : Program F A B D L W} (q : Private p)
    (span : F → Option Span) (contract : F → Contract) (honest : W → D → Thread F A B L → Prop)
    (d₀ : D) (events : List (Event Tid F L)) (m : Machine Tid F A B D L) : Prop where
  lock : LockInv p contract m
  word : p.lock.read m.data = 0 ∨ p.lock.read m.data = p.lock.busy
  explained : ∃ (hist : List (Record Tid F A B L)) (phase : Tid → Phase F L) (base : D),
    Served p honest d₀ hist base ∧ (p.lock.read m.data = 0 → base = m.data) ∧
    (∀ t, Stands q span honest hist base m.data t (m.thread t) (phase t)) ∧
    ∀ guess : Tid → L, Linear events (hist.map (Record.call guess))
      (fun t => (phase t).status (guess t))

section Order

variable {p : Program F A B D L W} {q : Private p} {span : F → Option Span}
  {honest : W → D → Thread F A B L → Prop} {d₀ d d' base base' : D}
  {hist : List (Record Tid F A B L)}

theorem Served.append {c : Record Tid F A B L} (served : Served p honest d₀ hist d)
    (last : Follows p honest (d, p.start c.fn c.args) (d', c.now)) :
    Served p honest d₀ (hist ++ [c]) d' := by
  induction served with
  | nil => exact .cons last .nil
  | cons first rest ih => exact .cons first (ih last)

/-- A call that has had its effect goes on without the data. -/
theorem Served.quiet {c : Record Tid F A B L} {i : Nat} {x : Thread F A B L}
    (served : Served p honest d₀ hist d) (here : hist[i]? = some c)
    (follows : ∀ d, Follows p honest (d, c.now) (d, x)) :
    Served p honest d₀ (hist.set i { c with now := x }) d := by
  induction served generalizing i with
  | nil => contradiction
  | cons first rest ih =>
    cases i with
    | zero =>
      obtain rfl := Option.some.inj here
      exact .cons (first.trans (follows _)) rest
    | succ i => exact .cons first (ih here)

theorem Settled.append {t : Tid} {but : Option Nat} (settled : Settled t hist but)
    {c : Record Tid F A B L} (here : c.thread = t → some hist.length ≠ but →
      c.now.code = [] ∧ c.now.holds = false) : Settled t (hist ++ [c]) but := by
  intro i e at_i thread other
  rcases Nat.lt_trichotomy i hist.length with less | rfl | more
  · rw [List.getElem?_append_left less] at at_i
    exact settled i e at_i thread other
  · simp only [List.getElem?_concat_length, Option.some.injEq] at at_i
    subst at_i
    exact here thread other
  · rw [List.getElem?_eq_none (by simpa using Nat.succ_le_of_lt more)] at at_i
    contradiction

theorem Settled.weaken {t : Tid} (settled : Settled t hist none) (but : Option Nat) :
    Settled t hist but := fun i c here thread _ => settled i c here thread nofun

theorem Settled.set {t : Tid} {but but' : Option Nat} (settled : Settled t hist but)
    {c : Record Tid F A B L} (i : Nat) (wider : ∀ j, j ≠ i → some j ≠ but' → some j ≠ but)
    (here : c.thread = t → some i ≠ but' → c.now.code = [] ∧ c.now.holds = false) :
    Settled t (hist.set i c) but' := by
  intro j e at_j thread other
  rw [List.getElem?_set] at at_j
  split at at_j
  · rename_i same
    subst same
    split at at_j
    · obtain rfl := Option.some.inj at_j
      exact here thread other
    · contradiction
  · rename_i apart
    exact settled j e at_j thread (wider j (fun same => apart same.symm) other)

/-- The other threads stand as they stood, if the one inside still finds its data. -/
theorem Stands.move {t : Tid} {x : Thread F A B L} {phase : Phase F L}
    (stands : Stands q span honest hist base d t x phase)
    (keeps : x.holds = true → base' = base ∧ d' = d) :
    Stands q span honest hist base' d' t x phase := by
  cases stands with
  | idle done free settled => exact .idle done free settled
  | pending approach more settled => exact .pending approach more settled
  | inside follows sits holds settled =>
    obtain ⟨rfl, rfl⟩ := keeps holds
    exact .inside follows sits holds settled
  | effected args i here more sits free settled =>
    exact .effected args i here more sits free settled

theorem Stands.append {t : Tid} {x : Thread F A B L} {phase : Phase F L}
    (stands : Stands q span honest hist base d t x phase) {c : Record Tid F A B L}
    (other : c.thread ≠ t) : Stands q span honest (hist ++ [c]) base d t x phase := by
  have apart : ∀ {but}, Settled t hist but → Settled t (hist ++ [c]) but :=
    fun settled => settled.append fun same => absurd same other
  cases stands with
  | idle done free settled => exact .idle done free (apart settled)
  | pending approach more settled => exact .pending approach more (apart settled)
  | inside follows sits holds settled => exact .inside follows sits holds (apart settled)
  | effected args i here more sits free settled =>
    have short : i < hist.length := (List.getElem?_eq_some_iff.mp here).1
    refine .effected args i ?_ more sits free (apart settled)
    rwa [List.getElem?_append_left short]

theorem Stands.set {t : Tid} {x : Thread F A B L} {phase : Phase F L}
    (stands : Stands q span honest hist base d t x phase) {i : Nat} {c c' : Record Tid F A B L}
    (there : hist[i]? = some c) (other : c.thread ≠ t) (same : c'.thread = c.thread) :
    Stands q span honest (hist.set i c') base d t x phase := by
  have apart : ∀ {but}, Settled t hist but → Settled t (hist.set i c') but :=
    fun settled => settled.set i (fun _ _ => id) fun here => absurd (same ▸ here) other
  cases stands with
  | idle done free settled => exact .idle done free (apart settled)
  | pending approach more settled => exact .pending approach more (apart settled)
  | inside follows sits holds settled => exact .inside follows sits holds (apart settled)
  | effected args j here more sits free settled =>
    refine .effected args j ?_ more sits free (apart settled)
    rwa [List.getElem?_set_ne]
    rintro rfl
    rw [here] at there
    obtain rfl := Option.some.inj there
    exact other rfl

/-- What a call returns is told by its record once it has come back; until then any guess
will do. -/
theorem call_set [DecidableEq Tid] {t : Tid} {i : Nat} {c : Record Tid F A B L} {x : Thread F A B L}
    (settled : Settled t hist (some i)) (here : hist[i]? = some c) (thread : c.thread = t)
    (more : c.now.code ≠ []) (guess : Tid → L) :
    (hist.set i { c with now := x }).map (Record.call guess) =
      hist.map (Record.call (if x.code.isEmpty then Function.update guess t x.locals else guess)) := by
  apply List.ext_getElem?
  intro j
  rw [List.getElem?_map, List.getElem?_map, List.getElem?_set]
  by_cases same : i = j
  · subst same
    have short : i < hist.length := (List.getElem?_eq_some_iff.mp here).1
    have running : c.now.code.isEmpty = false := by simpa using more
    rw [if_pos rfl, if_pos short, here, Option.map_some, Option.map_some]
    simp only [Record.call, running]
    split
    · simp [thread]
    · simp
  · rw [if_neg same]
    cases at_j : hist[j]? with
    | none => rfl
    | some e =>
      rw [Option.map_some, Option.map_some]
      by_cases own : e.thread = t
      · have returned := (settled j e at_j own (by simpa using fun e => same e.symm)).1
        simp [Record.call, returned]
      · have others : (if x.code.isEmpty then Function.update guess t x.locals else guess) e.thread =
            guess e.thread := by
          split
          · exact Function.update_of_ne own _ _
          · rfl
        simp only [Record.call, others]

end Order

section Simulation

variable [DecidableEq Tid] {p : Program F A B D L W} {q : Private p} {span : F → Option Span}
  {contract : F → Contract} {honest : W → D → Thread F A B L → Prop} {d₀ : D}
  {events : List (Event Tid F L)} {m : Machine Tid F A B D L}

theorem next_word {w : W} {d : D} {x : Thread F A B L} {r : D × Thread F A B L}
    (word : p.lock.read d = 0 ∨ p.lock.read d = p.lock.busy) (moved : p.next w d x = some r) :
    p.lock.read r.1 = 0 ∨ p.lock.read r.1 = p.lock.busy := by
  unfold Program.next at moved
  split at moved
  · contradiction
  · rename_i c k code
    obtain rfl := Option.some.inj moved
    cases c with
    | act a =>
      rw [Program.exec, p.act_read]
      exact word
    | exchange free taken => exact .inr (p.lock.read_write d _)
    | release => exact .inl (p.lock.read_write d 0)
    | skip | ret | seq | ite | loop | forever | call => exact word
  · obtain rfl := Option.some.inj moved
    exact word

theorem status_update (phase : Tid → Phase F L) (t : Tid) (ph : Phase F L) (guess : Tid → L) :
    (fun u => (Function.update phase t ph u).status (guess u)) =
      Function.update (fun u => (phase u).status (guess u)) t (ph.status (guess t)) := by
  funext u
  by_cases same : u = t
  · subst same
    simp
  · simp [same]

theorem status_guess (phase : Tid → Phase F L) (t : Tid) (guess : Tid → L) (l : L) (s : Status F L) :
    Function.update (fun u => (phase u).status (Function.update guess t l u)) t s =
      Function.update (fun u => (phase u).status (guess u)) t s := by
  funext u
  by_cases same : u = t
  · subst same
    simp
  · simp [same]

/-- The end of a call, if a thread has come to it. -/
def ends (t : Tid) (x : Thread F A B L) : List (Event Tid F L) :=
  if x.code.isEmpty then [.ended t x.locals] else []

/-- A call that has just had its effect, and may be at its end. -/
theorem Linear.effect_ends {calls : List (Call Tid F L)} {status : Tid → Status F L} {t : Tid} {f : F}
    {args : L} (guess : L) (x : Thread F A B L) (linear : Linear events calls status)
    (pending : status t = .pending f args) :
    Linear (events ++ ends t x)
      (calls ++ [⟨t, f, args, if x.code.isEmpty then x.locals else guess⟩])
      (Function.update status t (if x.code.isEmpty then .idle else .effected f guess)) := by
  unfold ends
  split
  · have effected : Function.update status t (.effected f x.locals) t = .effected f x.locals := by simp
    have ended := (linear.effect x.locals pending).ended effected
    simpa using ended
  · simpa using linear.effect guess pending

/-- One thread has moved, and the others stand as they should. -/
theorem linearized_update {hist : List (Record Tid F A B L)} (phase : Tid → Phase F L) {t : Tid}
    {base d : D} {x : Thread F A B L} (ph : Phase F L)
    (lock : LockInv p contract { data := d, thread := Function.update m.thread t x })
    (word : p.lock.read d = 0 ∨ p.lock.read d = p.lock.busy)
    (served : Served p honest d₀ hist base) (free : p.lock.read d = 0 → base = d)
    (mover : Stands q span honest hist base d t x ph)
    (others : ∀ u, u ≠ t → Stands q span honest hist base d u (m.thread u) (phase u))
    (linear : ∀ guess : Tid → L, Linear events (hist.map (Record.call guess))
      (Function.update (fun u => (phase u).status (guess u)) t (ph.status (guess t)))) :
    Linearized q span contract honest d₀ events
      { data := d, thread := Function.update m.thread t x } := by
  refine ⟨lock, word, hist, Function.update phase t ph, base, served, free, ?_, ?_⟩
  · intro u
    by_cases same : u = t
    · subst same
      simpa using mover
    · simpa [same] using others u same
  · intro guess
    rw [status_update]
    exact linear guess

section Step

variable {hist : List (Record Tid F A B L)} {phase : Tid → Phase F L} {t : Tid} {base base' d : D}
  {x : Thread F A B L} {f : F} {args : L}
  (lock : LockInv p contract { data := d, thread := Function.update m.thread t x })
  (word : p.lock.read d = 0 ∨ p.lock.read d = p.lock.busy)
  (linear : ∀ guess : Tid → L, Linear events (hist.map (Record.call guess))
    (fun u => (phase u).status (guess u)))
include lock word linear

/-- A call on its way to its effect stays on it. -/
theorem linearized_pending (pending : phase t = .pending f args)
    (served : Served p honest d₀ hist base) (free : p.lock.read d = 0 → base = d)
    (mover : Stands q span honest hist base d t x (.pending f args))
    (others : ∀ u, u ≠ t → Stands q span honest hist base d u (m.thread u) (phase u)) :
    Linearized q span contract honest d₀ events
      { data := d, thread := Function.update m.thread t x } := by
  refine linearized_update phase (.pending f args) lock word served free mover others ?_
  intro guess
  have same : Function.update (fun u => (phase u).status (guess u)) t
      (Phase.status (guess t) (.pending f args)) = fun u => (phase u).status (guess u) := by
    rw [← pending]
    exact Function.update_eq_self t _
  rw [same]
  exact linear guess

/-- A call takes its effect, which is all that it does to the data. -/
theorem linearized_effect (pending : phase t = .pending f args) (settled : Settled t hist none)
    (served : Served p honest d₀ hist base)
    (follows : Follows p honest (base, p.start f args) (base', x))
    (free : p.lock.read d = 0 → base' = d) (unheld : x.holds = false)
    (rest : x.code ≠ [] → ∃ post, Sits q span post x.code .after)
    (others : ∀ u, u ≠ t → Stands q span honest hist base' d u (m.thread u) (phase u)) :
    Linearized q span contract honest d₀ (events ++ ends t x)
      { data := d, thread := Function.update m.thread t x } := by
  refine linearized_update phase (if x.code.isEmpty then .idle else .effected f) lock word
    (served.append (c := ⟨t, f, args, x⟩) follows) free ?_ ?_ ?_
  · by_cases done : x.code = []
    · rw [if_pos (by simpa using done)]
      exact .idle done unheld (settled.append fun _ _ => ⟨done, unheld⟩)
    · obtain ⟨post, sits⟩ := rest done
      rw [if_neg (by simpa using done)]
      refine .effected args hist.length (by simp) done sits unheld ?_
      exact (settled.weaken _).append fun _ other => absurd rfl other
  · exact fun u other => (others u other).append fun same => other same.symm
  · intro guess
    have now : (phase t).status (guess t) = .pending f args := by rw [pending]; rfl
    have effected := (linear guess).effect_ends (guess t) x now
    rw [List.map_append]
    refine cast ?_ effected
    congr 2
    split <;> rfl

/-- A call that has had its effect goes on to its end. -/
theorem linearized_after {x₀ : Thread F A B L} {i : Nat} (effected : phase t = .effected f)
    (here : hist[i]? = some ⟨t, f, args, x₀⟩) (more : x₀.code ≠ [])
    (settled : Settled t hist (some i)) (served : Served p honest d₀ hist base)
    (follows : ∀ d, Follows p honest (d, x₀) (d, x)) (free : p.lock.read d = 0 → base = d)
    (unheld : x.holds = false) (rest : x.code ≠ [] → ∃ post, Sits q span post x.code .after)
    (others : ∀ u, u ≠ t → Stands q span honest hist base d u (m.thread u) (phase u)) :
    Linearized q span contract honest d₀ (events ++ ends t x)
      { data := d, thread := Function.update m.thread t x } := by
  have short : i < hist.length := (List.getElem?_eq_some_iff.mp here).1
  refine linearized_update phase (if x.code.isEmpty then .idle else .effected f) lock word
    (served.quiet here follows) free ?_ ?_ ?_
  · by_cases done : x.code = []
    · rw [if_pos (by simpa using done)]
      refine .idle done unheld (settled.set i ?_ fun _ _ => ⟨done, unheld⟩)
      intro j other _ same
      exact other (Option.some.inj same)
    · obtain ⟨post, sits⟩ := rest done
      rw [if_neg (by simpa using done)]
      refine .effected args i ?_ done sits unheld ?_
      · rw [List.getElem?_set_self short]
      · exact settled.set i (fun _ _ => id) fun _ other => absurd rfl other
  · exact fun u other => (others u other).set here (fun same => other same.symm) rfl
  · intro guess
    rw [call_set settled here rfl more guess]
    unfold ends
    split
    · have result : (phase t).status (Function.update guess t x.locals t) = .effected f x.locals := by
        simp [effected, Phase.status]
      have ended := (linear (Function.update guess t x.locals)).ended result
      rwa [status_guess] at ended
    · have same : Function.update (fun u => (phase u).status (guess u)) t
          (Phase.status (guess t) (.effected f)) = fun u => (phase u).status (guess u) := by
        rw [← effected]
        exact Function.update_eq_self t _
      rw [List.append_nil, same]
      exact linear guess

end Step

theorem Sits.more {post : Stage} {x : Thread F A B L} (sits : Sits q span post x.code .inside) :
    x.code ≠ [] := by
  intro done
  rw [done] at sits
  cases sits with
  | idle out => exact out rfl

omit [DecidableEq Tid] in
theorem ends_none {t : Tid} {x : Thread F A B L} (more : x.code ≠ []) :
    (ends t x : List (Event Tid F L)) = [] := by
  unfold ends
  rw [if_neg (by simpa using more)]

section Runs

variable (meets : ∀ f, p.meets contract f = true) (sound : ∀ f, q.sectioned span f = true)
  (kept : ∀ d, p.lock.write d (p.lock.read d) = d)
  (harmless : ∀ d x x', q.step x = some x' → ∃ w, honest w d x)
include meets sound

theorem Linearized.begin {t : Tid} {f : F} {args : L} {m' : Machine Tid F A B D L}
    (inv : Linearized q span contract honest d₀ events m)
    (moved : p.step m (t, (.begin f args : Move F L W)) = some m')
    (whole : span f = some ⟨.before, .after⟩) :
    Linearized q span contract honest d₀ (events ++ [.began t f args]) m' := by
  have lock := inv.lock.step meets _ moved
  obtain ⟨hist, phase, base, served, free, stands, linear⟩ := inv.explained
  simp only [Program.step] at moved
  split at moved
  · rename_i guard
    obtain rfl := Option.some.inj moved
    have idle : (m.thread t).code = [] := List.isEmpty_iff.mp (Bool.and_eq_true_iff.mp guard).1
    have mine := stands t
    generalize at_t : phase t = ph at mine
    cases mine with
    | idle _ unheld settled =>
      have sits : Sits q span .after [.cmd (p.body f)] .before :=
        body_sits (sound f) whole (fun h within => .idle (by
          rcases within with rfl | ⟨rfl, _⟩ <;> decide)) rfl
      rw [unheld] at lock ⊢
      refine linearized_update phase (.pending f args) lock inv.word served free ?_
        (fun u _ => stands u) ?_
      · exact .pending (.quiet .refl sits (by decide)) (by simp) settled
      · intro guess
        exact (linear guess).began f args (by rw [at_t]; rfl)
    | pending _ more => exact absurd idle more
    | inside _ sits => exact absurd idle sits.more
    | effected _ _ _ more => exact absurd idle more
  · contradiction

include kept harmless

theorem Linearized.go {t : Tid} {w : W} {m' : Machine Tid F A B D L}
    (inv : Linearized q span contract honest d₀ events m)
    (moved : p.step m (t, (.go w : Move F L W)) = some m')
    (allowed : honest w m.data (m.thread t)) :
    Linearized q span contract honest d₀ (events ++ ends t (m'.thread t)) m' := by
  have lock := inv.lock.step meets _ moved
  obtain ⟨hist, phase, base, served, free, stands, linear⟩ := inv.explained
  obtain ⟨⟨d, x⟩, next, rfl⟩ := Option.map_eq_some_iff.mp moved
  have word := next_word inv.word next
  dsimp only at next lock word ⊢
  rw [Function.update_self]
  have nobody : p.lock.read m.data = 0 → ∀ u, (m.thread u).holds ≠ true :=
    fun zero u holds => inv.lock.word.mpr ⟨u, holds⟩ zero
  have mine := stands t
  generalize at_t : phase t = ph at mine
  cases mine with
  | idle done =>
    unfold Program.next at next
    rw [done] at next
    contradiction
  | @pending f args approach more settled =>
    have nearer := approach.next sound rfl next
    dsimp only at nearer
    cases nearer with
    | waits approach' unheld same =>
      have unchanged : d = m.data := by
        rcases same with same | ⟨busy, same⟩
        · exact same
        · rw [same, ← inv.word.resolve_left busy]
          exact kept m.data
      subst unchanged
      by_cases done : x.code = []
      · exact linearized_effect lock word linear at_t settled served
          ((approach'.ended done).follows harmless base) free unheld (absurd done)
          (fun u _ => stands u)
      · rw [ends_none done, List.append_nil]
        exact linearized_pending lock word linear at_t served free (.pending approach' done settled)
          (fun u _ => stands u)
    | takes zero alone sits holds =>
      rw [ends_none sits.more, List.append_nil]
      obtain rfl := free zero
      have follows := (alone.follows harmless m.data).trans (.step w next allowed)
      refine linearized_pending lock word linear at_t served ?_ (.inside follows sits holds settled) ?_
      · intro zero'
        rw [p.lock.read_write] at zero'
        exact absurd zero' p.lock.busy_ne
      · exact fun u _ => (stands u).move fun holds => absurd holds (nobody zero u)
  | @inside f args post follows sits holds settled =>
    have others : ∀ base' u, u ≠ t →
        Stands q span honest hist base' d u (m.thread u) (phase u) := fun base' u other =>
      (stands u).move fun also => absurd (inv.lock.one u t also holds) other
    have follows' := follows.trans (.step w next allowed)
    have advance := sits.next sound (by simp [holds]) next
    dsimp only at advance
    cases advance with
    | quiet _ out => exact absurd rfl out
    | @inside _ _ post' h' _ sits' later held =>
      cases h' with
      | before => exact absurd rfl later
      | inside =>
        rw [ends_none sits'.more, List.append_nil]
        have still : x.holds = true := held.mp rfl
        refine linearized_pending lock word linear at_t served (fun zero => ?_)
          (.inside follows' sits' still settled) (others base)
        exact absurd zero (lock.word.mpr ⟨t, by simpa using still⟩)
      | after =>
        have unheld : x.holds = false := by simpa using held
        exact linearized_effect lock word linear at_t settled served follows' (fun _ => rfl) unheld
          (fun _ => ⟨post', sits'⟩) (others d)
    | spin start => contradiction
  | @effected f post args i here more sits unheld settled =>
    have advance := sits.next sound (by simp [unheld]) next
    dsimp only at advance
    cases advance with
    | quiet step _ sits' _ later =>
      rw [later rfl] at sits'
      exact linearized_after lock word linear at_t here more settled served
        (fun d => Alone.follows harmless d (.single step)) free ((q.step_holds step).trans unheld)
        (fun _ => ⟨_, sits'⟩) (fun u _ => stands u)
    | inside held => contradiction
    | spin start => contradiction

theorem Linearized.run (schedule : List (Tid × Move F L W)) {m' : Machine Tid F A B D L}
    (inv : Linearized q span contract honest d₀ events m)
    (allowed : Runs.Permitted p.step (Allowed span honest) m schedule)
    (ran : Runs.run p.step m schedule = some m') :
    Linearized q span contract honest d₀ (events ++ history p m schedule) m' := by
  induction schedule generalizing m events with
  | nil =>
    obtain rfl := Option.some.inj ran
    rw [history, List.append_nil]
    exact inv
  | cons move rest ih =>
    obtain ⟨m₁, moved, later⟩ := Option.bind_eq_some_iff.mp ran
    simp only [history, moved]
    rw [← List.append_assoc]
    refine ih ?_ (allowed.2 m₁ moved) later
    obtain ⟨t, move⟩ := move
    cases move with
    | begin f args => exact inv.begin meets sound moved allowed.1
    | go w => exact inv.go meets sound kept harmless moved allowed.1

omit [DecidableEq Tid] meets sound kept in
/-- The threads that have had their effect run on to their ends. -/
theorem Served.serially {hist : List (Record Tid F A B L)} {base : D} {guess : Tid → L}
    (served : Served p honest d₀ hist base)
    (returns : ∀ c ∈ hist, c.now.code = [] ∧ c.now.holds = false ∨
      c.now.code ≠ [] ∧ Alone q c.now ⟨[], guess c.thread, false⟩) :
    Serially p honest d₀ (hist.map (Record.call guess)) base := by
  induction served with
  | nil => exact .nil
  | @cons d d' d'' c hist first rest ih =>
    refine .cons (first.trans ?_) (ih fun e mem => returns e (List.mem_cons_of_mem c mem))
    rcases returns c List.mem_cons_self with ⟨done, unheld⟩ | ⟨more, alone⟩
    · obtain ⟨t, f, args, code, locals, holds⟩ := c
      dsimp only at done unheld
      subst done unheld
      exact .refl _
    · have open_ : c.now.code.isEmpty = false := by simpa using more
      have result : (c.call guess).result = guess c.thread := by simp [Record.call, open_]
      rw [result]
      exact alone.follows harmless d'

/-- Every run of a checked program, from idle threads and a free lock, is linearizable:
its calls have an order in which each takes effect between its beginning and its end, and
one after the other, in this order, they lead to the data of every state in which the
lock is free. -/
theorem linearizable [Inhabited W] (m₀ : Machine Tid F A B D L) (free : p.lock.read m₀.data = 0)
    (idle : ∀ t, (m₀.thread t).code = [] ∧ (m₀.thread t).holds = false)
    (schedule : List (Tid × Move F L W)) {m : Machine Tid F A B D L}
    (allowed : Runs.Permitted p.step (Allowed span honest) m₀ schedule)
    (ran : Runs.run p.step m₀ schedule = some m) :
    ∃ (calls : List (Call Tid F L)) (status : Tid → Status F L) (base : D),
      Linear (history p m₀ schedule) calls status ∧ Serially p honest m₀.data calls base ∧
      (p.lock.read m.data = 0 → base = m.data) ∧
      ∀ t, status t = .idle ↔ (m.thread t).code = [] := by
  have start : Linearized q span contract honest m₀.data [] m₀ := by
    refine ⟨lockInv_idle free idle, .inl free, [], fun _ => .idle, m₀.data, .nil, fun _ => rfl,
      fun t => .idle (idle t).1 (idle t).2 ?_, fun _ => .start⟩
    intro i c here
    contradiction
  obtain ⟨hist, phase, base, served, same, stands, linear⟩ :=
    (start.run meets sound kept harmless schedule allowed ran).explained
  have finish : ∀ t, ∃ l, ∀ f, phase t = .effected f → Alone q (m.thread t) ⟨[], l, false⟩ := by
    intro t
    have mine := stands t
    generalize phase t = ph at mine ⊢
    cases mine with
    | idle | pending | inside => exact ⟨(m.thread t).locals, nofun⟩
    | effected args i here more sits unheld settled =>
      obtain ⟨l, alone⟩ := sits.finishes sound base unheld
      exact ⟨l, fun _ _ => alone⟩
  obtain ⟨guess, alone⟩ := Classical.axiomOfChoice finish
  refine ⟨hist.map (Record.call guess), fun t => (phase t).status (guess t), base, ?_, ?_, same, ?_⟩
  · simpa using linear guess
  · refine served.serially harmless fun c mem => ?_
    obtain ⟨i, here⟩ := List.mem_iff_getElem?.mp mem
    have mine := stands c.thread
    generalize at_t : phase c.thread = ph at mine
    cases mine with
    | idle _ _ settled | pending _ _ settled | inside _ _ _ settled =>
      exact .inl (settled i c here rfl nofun)
    | @effected f post args j there more sits unheld settled =>
      by_cases at_j : i = j
      · subst at_j
        have own := alone c.thread f at_t
        rw [here] at there
        rw [show c.now = m.thread c.thread from congrArg Record.now (Option.some.inj there)]
        exact .inr ⟨more, own⟩
      · exact .inl (settled i c here rfl fun e => at_j (Option.some.inj e))
  · intro t
    have mine := stands t
    dsimp only
    generalize phase t = ph at mine ⊢
    cases mine with
    | idle done => exact iff_of_true rfl done
    | pending _ more => exact iff_of_false nofun more
    | inside _ sits => exact iff_of_false nofun sits.more
    | effected _ _ _ more => exact iff_of_false nofun more

end Runs

end Simulation

end Locks
