import RiseOS.Paging.Effects
import RiseOS.Library.Runs

/-! Runs of the page hooks: what an allocation's success depends on, and what
becomes of a failed frame request. -/
namespace RiseOS
open Words Runs

/-! ### Success and the history of a run -/

inductive HookOp where
  | alloc (pages : Int)
  | free (ptr : Nat) (pages : Int)

def hookStep (s : Vmm) : HookOp → Option Vmm
  | .alloc pages => (s.liballocAlloc pages).map Prod.fst
  | .free ptr pages => (s.liballocFree ptr pages).map Prod.fst

/-- Each chunk is given back once, with the page count it was allocated with. -/
def HookAllowed (s : Vmm) : HookOp → Prop
  | .alloc _ => True
  | .free ptr pages => ptr < 2 ^ 32 ∧ (ptr, pages) ∈ outstanding s.calls

def Succeeds (s : Vmm) (pages : Int) : Prop :=
  ∃ t r, s.liballocAlloc pages = some (t, r) ∧ r ≠ 0

/-- The bytes of all chunks ever handed out, returned or not. -/
def allocatedBytes : List HookCall → Nat
  | [] => 0
  | .alloc pages _ :: rest => regionSize pages + allocatedBytes rest
  | .refused _ :: rest | .free _ _ :: rest => allocatedBytes rest

theorem allocatedBytes_append (calls more : List HookCall) :
    allocatedBytes (calls ++ more) = allocatedBytes calls + allocatedBytes more := by
  induction calls with
  | nil => simp [allocatedBytes]
  | cons c rest ih =>
    cases c with
    | alloc pages rez => simp only [List.cons_append, allocatedBytes, ih, Nat.add_assoc]
    | refused pages => simp only [List.cons_append, allocatedBytes, ih]
    | free ptr pages => simp only [List.cons_append, allocatedBytes, ih]

theorem succeeds_iff (s : Vmm) (pages : Int) (word : s.heapCur < 2 ^ 32) :
    Succeeds s pages ↔ s.heapCur ≠ 0 ∧ ¬ s.refuses pages ∧
      wrap (s.heapCur + regionSize pages) < 0xFFFFF000 := by
  unfold Succeeds
  rw [liballocAlloc_eq s pages word]
  constructor
  · rintro ⟨t, r, call, nonzero⟩
    split at call
    · obtain ⟨_, rfl⟩ := Prod.mk.inj (Option.some.inj call)
      exact absurd rfl nonzero
    · rename_i accepted
      split at call
      · rename_i below
        obtain ⟨_, rfl⟩ := Prod.mk.inj (Option.some.inj call)
        exact ⟨nonzero, accepted, below⟩
      · cases call
  · rintro ⟨nonzero, accepted, below⟩
    rw [if_neg accepted, if_pos below]
    exact ⟨_, _, rfl, nonzero⟩

theorem succeeds_congr {s t : Vmm} (pages : Int) (ws : s.heapCur < 2 ^ 32)
    (cur : t.heapCur = s.heapCur) (stop : t.heapEnd = s.heapEnd) :
    Succeeds t pages ↔ Succeeds s pages := by
  rw [succeeds_iff s pages ws, succeeds_iff t pages (cur ▸ ws)]
  simp only [Vmm.refuses, cur, stop]

/-- `heap_cur` lies behind the bytes handed out since `base`, whatever came back. -/
structure Bumped (base stop : Nat) (s : Vmm) : Prop where
  cur : s.heapCur = wrap (base + allocatedBytes s.calls)
  stop : s.heapEnd = stop

theorem alloc_keeps_bumped (base stop : Nat) (s t : Vmm) (pages : Int) (r : Nat)
    (inv : Bumped base stop s) (call : s.liballocAlloc pages = some (t, r)) :
    Bumped base stop t := by
  have word : s.heapCur < 2 ^ 32 := inv.cur ▸ wrap_lt _
  have same := foldl_heap Vmm.allocatePage allocatePage_heap
    (regionPages s.heapCur (wrap (s.heapCur + regionSize pages))) s
  rw [liballocAlloc_eq s pages word] at call
  split at call
  · obtain ⟨rfl, _⟩ := Prod.mk.inj (Option.some.inj call)
    refine ⟨?_, inv.stop⟩
    rw [allocatedBytes_append]
    exact inv.cur
  · split at call
    · obtain ⟨rfl, _⟩ := Prod.mk.inj (Option.some.inj call)
      refine ⟨?_, same.2.1.trans inv.stop⟩
      rw [allocatedBytes_append]
      simp only [inv.cur, allocatedBytes, wrap]
      omega
    · cases call

theorem free_keeps_bumped (base stop : Nat) (s t : Vmm) (ptr : Nat) (pages : Int) (r : Int)
    (word : ptr < 2 ^ 32) (inv : Bumped base stop s)
    (call : s.liballocFree ptr pages = some (t, r)) : Bumped base stop t := by
  have same := foldl_heap Vmm.freePage freePage_heap
    (regionPages ptr (wrap (ptr + regionSize pages))) s
  rw [liballocFree_eq s ptr pages word] at call
  split at call
  · obtain ⟨rfl, _⟩ := Prod.mk.inj (Option.some.inj call)
    refine ⟨?_, same.2.1.trans inv.stop⟩
    rw [allocatedBytes_append]
    exact same.2.2.1.trans inv.cur
  · cases call

theorem hook_keeps_bumped (base stop : Nat) (s t : Vmm) (op : HookOp) (inv : Bumped base stop s)
    (ok : HookAllowed s op) (stepped : hookStep s op = some t) : Bumped base stop t := by
  cases op with
  | alloc pages =>
    obtain ⟨⟨t', r⟩, call, rfl⟩ := Option.map_eq_some_iff.mp stepped
    exact alloc_keeps_bumped base stop s t' pages r inv call
  | free ptr pages =>
    obtain ⟨⟨t', r⟩, call, rfl⟩ := Option.map_eq_some_iff.mp stepped
    exact free_keeps_bumped base stop s t' ptr pages r ok.1 inv call

def HeapReady (s : Vmm) : Prop :=
  s.heapCur = s.heapStart ∧ s.heapStart < 2 ^ 32 ∧ s.calls = []

theorem run_keeps_bumped (s t : Vmm) (ops : List HookOp) (ready : HeapReady s)
    (allowed : Permitted hookStep HookAllowed s ops) (ended : run hookStep s ops = some t) :
    Bumped s.heapStart s.heapEnd t := by
  obtain ⟨cur, word, fresh⟩ := ready
  have start : Bumped s.heapStart s.heapEnd s := by
    refine ⟨?_, rfl⟩
    rw [cur, fresh]
    exact (wrap_eq word).symm
  exact always_invariant hookStep HookAllowed (Bumped s.heapStart s.heapEnd)
    (fun u op u' inv ok st => hook_keeps_bumped _ _ u u' op inv ok st)
    s ops start allowed ops (List.prefix_refl ops) t ended

/-- After any run the success of an allocation depends on the bytes of all
chunks ever handed out; chunks given back do not count less. -/
theorem success_ignores_frees (s t : Vmm) (ops : List HookOp) (ready : HeapReady s)
    (allowed : Permitted hookStep HookAllowed s ops) (ended : run hookStep s ops = some t)
    (pages : Int) :
    Succeeds t pages ↔
      Succeeds { s with heapCur := wrap (s.heapStart + allocatedBytes t.calls) } pages := by
  have bumped := run_keeps_bumped s t ops ready allowed ended
  exact succeeds_congr pages (wrap_lt _) bumped.cur bumped.stop

theorem chunk_comes_back : ∃ t,
    run hookStep oneMapping [.alloc 600, .free 0x301400 600] = some t ∧
    Permitted hookStep HookAllowed oneMapping [.alloc 600, .free 0x301400 600] ∧
    t.heapEnd = oneMapping.heapEnd ∧ t.heapCur = 0x559400 ∧ outstanding t.calls = [] := by
  obtain ⟨m, first, _, stop, cur, calls⟩ :=
    liballocAlloc_returns oneMapping 600 (by decide) (by decide) (by decide)
  have moved : m.heapCur = 0x559400 := cur.trans (by decide)
  obtain ⟨n, second, _, stop', cur', calls'⟩ :=
    liballocFree_returns m 0x301400 600 (by decide) (by decide)
  refine ⟨n, ?_, ?_, stop'.trans stop, cur'.trans moved, ?_⟩
  · simp [hookStep, first, second]
  · refine ⟨trivial, fun u hu => ?_⟩
    simp only [hookStep, first, Option.map_some, Option.some.injEq] at hu
    subst hu
    refine ⟨⟨by decide, ?_⟩, fun _ _ => trivial⟩
    rw [calls]
    decide
  · rw [calls', calls]
    decide

/-- A chunk of 600 pages is taken and given back; then nothing is outstanding,
but another 600 pages no longer fit. -/
theorem returned_space_not_reused :
    HeapReady oneMapping ∧ Succeeds oneMapping 600 ∧
    ∃ t, run hookStep oneMapping [.alloc 600, .free 0x301400 600] = some t ∧
      Permitted hookStep HookAllowed oneMapping [.alloc 600, .free 0x301400 600] ∧
      outstanding t.calls = [] ∧ ¬ Succeeds t 600 := by
  obtain ⟨t, ran, allowed, stop, cur, back⟩ := chunk_comes_back
  refine ⟨⟨rfl, by decide, rfl⟩, ?_, t, ran, allowed, back, ?_⟩
  · exact (succeeds_iff oneMapping 600 (by decide)).mpr ⟨by decide, by decide, by decide⟩
  · rw [succeeds_iff t 600 (by rw [cur]; decide)]
    rintro ⟨_, accepted, _⟩
    apply accepted
    rw [Vmm.refuses, stop, cur]
    decide

/-- 600 pages come and go, and 16 more are taken: 100 pages fit as they would behind all of
these. -/
theorem success_after_return : ∃ t,
    run hookStep oneMapping ([.alloc 600, .free 0x301400 600] ++ [.alloc 16]) = some t ∧
    (Succeeds t 100 ↔ Succeeds { oneMapping with
      heapCur := wrap (oneMapping.heapStart + allocatedBytes t.calls) } 100) := by
  obtain ⟨t, ran, allowed, stop, cur, _⟩ := chunk_comes_back
  obtain ⟨u, third, _⟩ := liballocAlloc_returns t 16 (by rw [cur]; decide)
    (by rw [Vmm.refuses, stop, cur]; decide) (by rw [cur]; decide)
  have ended : run hookStep oneMapping ([.alloc 600, .free 0x301400 600] ++ [.alloc 16]) = some u := by
    rw [run_append, ran, Option.bind_some, run_cons, hookStep, third]
    rfl
  have permitted := (permitted_snoc hookStep HookAllowed oneMapping _ (.alloc 16)).mpr
    ⟨allowed, fun _ _ => trivial⟩
  exact ⟨u, ended, success_ignores_frees oneMapping u _ ⟨rfl, by decide, rfl⟩ permitted ended 100⟩

/-! ### Failed frame requests -/

/-- A call that reports exhaustion as liballoc expects it: NULL, `heap_cur` where
it was, and no entry made present with the failure value. -/
structure Reports (s t : Vmm) (r : Nat) (events : List Event) : Prop where
  null : r = 0
  kept : t.heapCur = s.heapCur
  clean : ∀ entry frame, .mapped entry frame ∈ events → frame ≠ noFrame

/-- `t` extends the trace of `s` by events that satisfy `Q`. -/
def Grows (Q : List Event → Prop) (s t : Vmm) : Prop :=
  ∃ events, t.trace = s.trace ++ events ∧ Q events

theorem Grows.refl {Q : List Event → Prop} (nil : Q []) (s : Vmm) : Grows Q s s :=
  ⟨[], by simp, nil⟩

theorem Grows.trans {Q : List Event → Prop} (append : ∀ es fs, Q es → Q fs → Q (es ++ fs))
    {s t u : Vmm} (h : Grows Q s t) (k : Grows Q t u) : Grows Q s u := by
  obtain ⟨es, he, qe⟩ := h
  obtain ⟨fs, hf, qf⟩ := k
  exact ⟨es ++ fs, by rw [hf, he, List.append_assoc], append es fs qe qf⟩

theorem foldl_grows {Q : List Event → Prop} (nil : Q [])
    (append : ∀ es fs, Q es → Q fs → Q (es ++ fs)) (body : Vmm → Nat → Vmm)
    (grows : ∀ s va, Grows Q s (body s va)) (vas : List Nat) (s : Vmm) :
    Grows Q s (vas.foldl body s) :=
  foldl_keeps body (Grows Q s) vas (fun t va _ ht => ht.trans append (grows t va)) s (Grows.refl nil s)

/-- Whatever kalloc_page_frame returned is installed in some entry. -/
def AllInstalled (events : List Event) : Prop :=
  ∀ frame, .frame frame ∈ events → ∃ entry, .mapped entry frame ∈ events

theorem AllInstalled.nil : AllInstalled [] := by
  intro frame h
  cases h

theorem AllInstalled.append (es fs : List Event) (he : AllInstalled es) (hf : AllInstalled fs) :
    AllInstalled (es ++ fs) := by
  intro frame h
  rcases List.mem_append.mp h with h | h
  · obtain ⟨entry, k⟩ := he frame h
    exact ⟨entry, List.mem_append_left fs k⟩
  · obtain ⟨entry, k⟩ := hf frame h
    exact ⟨entry, List.mem_append_right es k⟩

theorem withTable_installs (s : Vmm) (i : Nat) : Grows AllInstalled s (s.withTable i) := by
  unfold Vmm.withTable
  split
  · exact ⟨_, createTable_trace s i, by simp [AllInstalled]⟩
  · exact Grows.refl AllInstalled.nil s

theorem allocatePage_installs (s : Vmm) (vaddr : Nat) :
    Grows AllInstalled s (s.allocatePage vaddr) := by
  have first := withTable_installs s (pagedirIndex vaddr)
  rw [allocatePage_eq]
  split
  · exact first
  · exact first.trans AllInstalled.append
      ⟨_, mapPage_trace _ _ _, by simp [AllInstalled]⟩

/-- A failed frame request is never reported: the call returns the old `heap_cur`,
moves it, and has made an entry present with the failure value. -/
theorem exhaustion_unreported (s t : Vmm) (pages : Int) (r : Nat) (events : List Event)
    (word : s.heapCur < 2 ^ 32) (call : s.liballocAlloc pages = some (t, r))
    (grown : t.trace = s.trace ++ events) (failed : .frame noFrame ∈ events) :
    ¬ Reports s t r events ∧ r = s.heapCur ∧
      t.heapCur = wrap (s.heapCur + regionSize pages) ∧
      ∃ entry, .mapped entry noFrame ∈ events := by
  rw [liballocAlloc_eq s pages word] at call
  split at call
  · obtain ⟨rfl, _⟩ := Prod.mk.inj (Option.some.inj call)
    have none : events = [] := by
      have same : s.trace = s.trace ++ events := grown
      simpa using same
    rw [none] at failed
    cases failed
  · split at call
    · obtain ⟨rfl, rfl⟩ := Prod.mk.inj (Option.some.inj call)
      obtain ⟨fs, hf, installed⟩ := foldl_grows AllInstalled.nil AllInstalled.append
        Vmm.allocatePage allocatePage_installs
        (regionPages s.heapCur (wrap (s.heapCur + regionSize pages))) s
      have same : events = fs := List.append_cancel_left (grown.symm.trans hf)
      obtain ⟨entry, mapped⟩ := same ▸ installed noFrame (same ▸ failed)
      exact ⟨fun reports => reports.clean entry noFrame mapped rfl, rfl, rfl, entry, mapped⟩
    · cases call

theorem full_bitmap_fails (s : Vmm) (pages : Int) (word : s.heapCur < 2 ^ 32)
    (accepted : ¬ s.refuses pages) (below : wrap (s.heapCur + regionSize pages) < 0xFFFFF000)
    (ordered : s.heapCur / 4096 ≤ wrap (s.heapCur + regionSize pages) / 4096)
    (full : ∀ i, i < frameLimit → isset s.pmm.bitmap i = true)
    (table : s.dir.tables (pagedirIndex (s.heapCur / 4096 * 4096)) ≠ 0)
    (absent : (s.entryOf (s.heapCur / 4096 * 4096)).present = false) :
    ∃ t r events, s.liballocAlloc pages = some (t, r) ∧ t.trace = s.trace ++ events ∧
      .frame noFrame ∈ events := by
  have failed : s.pmm.kallocPageFrame.2 = noFrame := by
    rcases kallocPageFrame_cases s.pmm with ⟨i, hi, clear, _⟩ | ⟨_, _, result⟩
    · rw [full i hi] at clear
      cases clear
    · rw [result]
  have same : s.withTable (pagedirIndex (s.heapCur / 4096 * 4096)) = s := if_neg table
  have first : s.allocatePage (s.heapCur / 4096 * 4096) =
      s.mapPage (s.dir.tables (pagedirIndex (s.heapCur / 4096 * 4096)))
        (pagetblIndex (s.heapCur / 4096 * 4096)) := by
    rw [allocatePage_eq, same, absent]
    rfl
  obtain ⟨count, some_pages⟩ : ∃ count,
      wrap (s.heapCur + regionSize pages) / 4096 + 1 - s.heapCur / 4096 = count + 1 :=
    ⟨wrap (s.heapCur + regionSize pages) / 4096 - s.heapCur / 4096, by omega⟩
  obtain ⟨fs, rest, _⟩ := foldl_grows AllInstalled.nil AllInstalled.append
    Vmm.allocatePage allocatePage_installs (pagesFrom (s.heapCur / 4096 * 4096 + 4096) count)
    (s.allocatePage (s.heapCur / 4096 * 4096))
  rw [liballocAlloc_eq s pages word, if_neg accepted, if_pos below, regionPages, some_pages]
  refine ⟨_, _, [Event.frame noFrame,
    .store (pageAddress (s.dir.tables (pagedirIndex (s.heapCur / 4096 * 4096)))
      (pagetblIndex (s.heapCur / 4096 * 4096))),
    .mapped (pageAddress (s.dir.tables (pagedirIndex (s.heapCur / 4096 * 4096)))
      (pagetblIndex (s.heapCur / 4096 * 4096))) noFrame] ++ fs, rfl, ?_, by simp⟩
  change ((pagesFrom (s.heapCur / 4096 * 4096 + 4096) count).foldl Vmm.allocatePage
    (s.allocatePage (s.heapCur / 4096 * 4096))).trace = _
  rw [rest, first, mapPage_trace, failed, List.append_assoc]

def fullMemory : Vmm :=
  { oneMapping with pmm := ⟨0x301400, fun _ => 0xFFFFFFFF#32, []⟩ }

theorem fullMemory_fails : ∃ t r events, fullMemory.liballocAlloc 16 = some (t, r) ∧
    t.trace = fullMemory.trace ++ events ∧ .frame noFrame ∈ events := by
  refine full_bitmap_fails fullMemory 16 (by decide) (by decide) (by decide) (by decide) ?_
    (by decide) (by decide)
  intro i _
  have low : i % 8 < 32 := by omega
  rw [isset_getLsbD]
  change (BitVec.allOnes 32).getLsbD (i % 8) = true
  rw [BitVec.getLsbD_allOnes, decide_eq_true low]

/-- Sixteen pages without a single free frame: the caller gets a chunk. -/
theorem fullMemory_unreported : ∃ t r events, fullMemory.liballocAlloc 16 = some (t, r) ∧
    t.trace = fullMemory.trace ++ events ∧ .frame noFrame ∈ events ∧
    ¬ Reports fullMemory t r events := by
  obtain ⟨t, r, events, call, grown, failed⟩ := fullMemory_fails
  refine ⟨t, r, events, call, grown, failed, ?_⟩
  have nonzero : r ≠ 0 := by
    rw [liballocAlloc_eq fullMemory 16 (by decide), if_neg (by decide), if_pos (by decide)] at call
    rw [← (Prod.mk.inj (Option.some.inj call)).2]
    decide
  exact fun reports => nonzero reports.null

theorem fullMemory_chunk_returned : ∃ t r events, fullMemory.liballocAlloc 16 = some (t, r) ∧
    t.trace = fullMemory.trace ++ events ∧ r = 0x301400 ∧ t.heapCur = 0x311400 := by
  obtain ⟨t, r, events, call, grown, failed⟩ := fullMemory_fails
  obtain ⟨_, chunk, moved, _⟩ :=
    exhaustion_unreported fullMemory t 16 r events (by decide) call grown failed
  exact ⟨t, r, events, call, grown, chunk, moved.trans (by decide)⟩

end RiseOS
