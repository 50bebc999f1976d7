import RiseOS.Concurrency.Hooks

/-! The commands of a thread compute what malloc, free and realloc do as functions on
the heap, when no other thread interrupts it. -/
namespace RiseOS
open Words Locks

section Hooks

variable {s : Heap} {l : Locals} {h : Bool}

theorem spinLock_ends (free : s.lock = 0) :
    Ends hookedProgram (.call .spinLock) (s, l, h) ({ s with lock := 1 }, l, true) false :=
  .call (.foreverReturns (.seqReturns (.exchangeFree free .ret)))

theorem liballocLock_ends (free : s.lock = 0) :
    Ends hookedProgram (.call .liballocLock) (s, l, h) ({ s with lock := 1 }, l, true) false :=
  .call (.seq (spinLock_ends free) .ret)

theorem liballocUnlock_ends :
    Ends hookedProgram (.call .liballocUnlock) (s, l, h) (s.liballocUnlock, l, false) false :=
  .call (.seq (.call .release) .ret)

end Hooks

section Tests

variable {s : Heap} {l : Locals}

theorem complete_holds (whole : s.complete l.tag) : hookedProgram.test .complete s l = true :=
  decide_eq_true whole

theorem complete_fails (partly : ¬ s.complete l.tag) : hookedProgram.test .complete s l = false :=
  decide_eq_false partly

end Tests

/-- malloc's commands between the search and `tag->size = size`. -/
def obtainTag : HeapCmd :=
  .ite .tagNull
    (.block [
      .act .allocateNewTag,
      .ite .tagNull (.block [.call .liballocUnlock, .act .returnNull, .ret]) .skip,
      .act .newIndex])
    (.block [.act .removeTag, .ite .complete (.act .uncountComplete) .skip])

/-- malloc's commands from `tag->size = size` on. -/
def useTag : List HeapCmd :=
  [.act .setSize, .act .chooseRemainder,
   .ite .remainderPositive (.ite .childIndexValid (.act .splitTag) .skip) .skip,
   .act .ptrOfTag, .call .liballocUnlock, .act .returnPtr, .ret]

section Malloc

variable {s : Heap} {l : Locals} {h : Bool}

theorem searching_ends {fuel found : Nat} (searched : s.search l.size fuel l.tag = some found) :
    Ends hookedProgram (.loop .searching (.act .nextTag)) (s, l, h) (s, { l with tag := found }, h)
      false := by
  induction fuel generalizing l with
  | zero => contradiction
  | succ fuel ih =>
    rw [Heap.search] at searched
    by_cases null : l.tag = 0
    · rw [if_pos null] at searched
      obtain rfl := Option.some.inj searched
      rw [← null]
      exact .loopDone (by simp [hookedProgram, HeapTest.eval, null])
    · rw [if_neg null] at searched
      by_cases fits : wsub (s.get .realSize l.tag) sizeofTag ≥ wrap (sizeofTag + l.size)
      · rw [if_pos fits] at searched
        obtain rfl := Option.some.inj searched
        exact .loopDone (by simp [hookedProgram, HeapTest.eval, fits])
      · rw [if_neg fits] at searched
        refine .loopRound ?_ (.act ()) (ih searched)
        simpa [hookedProgram, HeapTest.eval, null] using fits

theorem initialize_ends {s' : Heap} (done : s.initialize = s') : Ends hookedProgram
    (.ite .uninitialized (.act .clearLists) .skip) (s, l, h) (s', l, h) false := by
  subst done
  unfold Heap.initialize
  by_cases first : s.initialized = 0
  · rw [if_pos first]
    exact .yes (by simp [hookedProgram, HeapTest.eval, first]) (.act ())
  · rw [if_neg first]
    exact .no (by simp [hookedProgram, HeapTest.eval, first]) .skip

theorem splitTag_ends : Ends hookedProgram
    (.ite .remainderPositive (.ite .childIndexValid (.act .splitTag) .skip) .skip) (s, l, h)
    (if signed l.remainder > 0 ∧ getexp l.remainder ≥ 0 then s.splitTag l.tag else s, l, h) false := by
  by_cases positive : signed l.remainder > 0
  · by_cases valid : getexp l.remainder ≥ 0
    · rw [if_pos ⟨positive, valid⟩]
      refine .yes ?_ (.yes ?_ (.act ()))
      · simpa [hookedProgram, HeapTest.eval] using positive
      · simpa [hookedProgram, HeapTest.eval] using valid
    · rw [if_neg (fun both => valid both.2)]
      refine .yes ?_ (.no ?_ .skip)
      · simpa [hookedProgram, HeapTest.eval] using positive
      · simpa [hookedProgram, HeapTest.eval] using valid
  · rw [if_neg (fun both => positive both.1)]
    exact .no (by simpa [hookedProgram, HeapTest.eval] using positive) .skip

theorem useTag_ends : ∃ l', Ends hookedProgram (.block useTag) (s, l, h)
      ((s.useTag l.tag l.size).liballocUnlock, l', false) true ∧
    l'.result = wrap (sizeofTag + l.tag) := by
  let t := s.set .size l.tag l.size
  let u := s.useTag l.tag l.size
  let left : Locals :=
    { l with remainder := wsub (wsub (t.get .realSize l.tag) l.size) (sizeofTag * 2) }
  let done : Locals := { left with ptr := wrap (sizeofTag + l.tag) }
  have sized : Ends hookedProgram (.act .setSize) (s, l, h) (t, l, h) false := .act_eq (w := ()) rfl
  have chosen : Ends hookedProgram (.act .chooseRemainder) (t, l, h) (t, left, h) false :=
    .act_eq (w := ()) rfl
  have halved : Ends hookedProgram
      (.ite .remainderPositive (.ite .childIndexValid (.act .splitTag) .skip) .skip)
      (t, left, h) (u, left, h) false := splitTag_ends
  have pointed : Ends hookedProgram (.act .ptrOfTag) (u, left, h) (u, done, h) false :=
    .act_eq (w := ()) rfl
  have returned : Ends hookedProgram (.act .returnPtr) (u.liballocUnlock, done, false)
      (u.liballocUnlock, { done with result := done.ptr }, false) false :=
    .act_eq (w := ()) rfl
  exact ⟨_, .seq sized (.seq chosen (.seq halved (.seq pointed (.seq liballocUnlock_ends
    (.seq returned .ret))))), rfl⟩

end Malloc

theorem allocateNewTag_ends {s s' : Heap} {l : Locals} {h : Bool} {tag : Nat}
    (asked : s.allocateNewTag l.size .aliased = some (s', tag)) :
    Ends hookedProgram (.act .allocateNewTag) (s, l, h) (s', { l with tag := tag }, h) false := by
  obtain ⟨r, answer, made⟩ := Option.map_eq_some_iff.mp asked
  have answered : HeapAct.answer s l .allocateNewTag = ⟨r.1.mem, r.1.vmm, r.2⟩ := by
    simp only [HeapAct.answer, newTagPages, answer]
  refine .act_eq (w := ()) ?_
  dsimp only at made
  simp only [hookedProgram, answered, HeapAct.run, aliased_alloc_rest answer]
  by_cases null : r.2 = 0
  · rw [if_pos null, Prod.mk.injEq] at made
    obtain ⟨rfl, rfl⟩ := made
    exact if_pos null
  · rw [if_neg null, Prod.mk.injEq] at made
    obtain ⟨rfl, rfl⟩ := made
    exact if_neg null

theorem obtainTag_null {s s' : Heap} {l : Locals} {h : Bool}
    (obtained : s.obtainTag l.size l.tag .aliased = some (s', 0)) :
    ∃ l', Ends hookedProgram obtainTag (s, l, h) (s'.liballocUnlock, l', false) true ∧ l'.result = 0 := by
  unfold Heap.obtainTag at obtained
  by_cases null : l.tag = 0
  · rw [if_pos null] at obtained
    have refused := allocateNewTag_ends (h := h) obtained
    exact ⟨_, .yes (by simp [hookedProgram, HeapTest.eval, null]) (.seq refused (.seqReturns
      (.yes rfl (.seq liballocUnlock_ends (.seq (.act ()) .ret))))), rfl⟩
  · rw [if_neg null] at obtained
    exact absurd (congrArg Prod.snd (Option.some.inj obtained)) null

theorem obtainTag_ends {s s' : Heap} {l : Locals} {h : Bool} {tag : Nat}
    (listed : l.index = bucket l.size) (obtained : s.obtainTag l.size l.tag .aliased = some (s', tag))
    (node : tag ≠ 0) : ∃ i, Ends hookedProgram obtainTag (s, l, h)
      (s', { l with tag := tag, index := i }, h) false := by
  unfold Heap.obtainTag at obtained
  by_cases null : l.tag = 0
  · rw [if_pos null] at obtained
    have granted := allocateNewTag_ends (h := h) obtained
    exact ⟨_, .yes (by simp [hookedProgram, HeapTest.eval, null]) (.seq granted (.seq
      (.no (by simp [hookedProgram, HeapTest.eval, node]) .skip) (.act ())))⟩
  · rw [if_neg null] at obtained
    obtain ⟨made, same⟩ := Prod.mk.inj (Option.some.inj obtained)
    refine ⟨l.index, .no (by simp [hookedProgram, HeapTest.eval, null]) (.seq (.act ()) ?_)⟩
    rw [← same, ← made, ← listed]
    by_cases whole : (s.removeTag l.tag).complete l.tag
    · rw [if_pos whole]
      exact .yes (complete_holds whole) (.act ())
    · rw [if_neg whole]
      exact .no (complete_fails whole) .skip

theorem malloc_begins {s : Heap} {size found : Nat} {x : Local Heap Locals} {r : Bool}
    (free : s.lock = 0)
    (searched : s.entered.search size loopFuel (s.entered.freePages (bucket size)) = some found)
    (rest : Ends hookedProgram (.block (obtainTag :: useTag)) (s.entered,
      { size := size, index := bucket size, tag := found }, true) x r) :
    Ends hookedProgram RiseOS.malloc (s, { size := size }, false) x r :=
  .seq (liballocLock_ends free) (.seq (initialize_ends (entered_eq s)) (.seq (.act ())
    (.seq (.act ()) (.seq (searching_ends searched) rest))))

theorem malloc_ends {s s' : Heap} {size ptr : Nat} (call : s.malloc size .aliased = some (s', ptr)) :
    ∃ l', Ends hookedProgram RiseOS.malloc (s, { size := size }, false) (s', l', false) true ∧
      l'.result = ptr := by
  have free : s.lock = 0 := by
    obtain ⟨m, locked, _⟩ := Option.bind_eq_some_iff.mp call
    exact (liballocLock_some locked).1
  rw [malloc_entered free size .aliased] at call
  obtain ⟨found, searched, tagged⟩ := Option.bind_eq_some_iff.mp call
  obtain ⟨⟨u, tag⟩, obtained, made⟩ := Option.map_eq_some_iff.mp tagged
  dsimp only at made
  by_cases null : tag = 0
  · rw [if_pos null] at made
    obtain ⟨rfl, rfl⟩ := Prod.mk.inj made
    obtain ⟨l', refused, result⟩ := obtainTag_null (h := true)
      (l := { size := size, index := bucket size, tag := found }) (null ▸ obtained)
    exact ⟨l', malloc_begins free searched (.seqReturns refused), result⟩
  · rw [if_neg null] at made
    obtain ⟨rfl, rfl⟩ := Prod.mk.inj made
    obtain ⟨i, granted⟩ := obtainTag_ends (h := true)
      (l := { size := size, index := bucket size, tag := found }) rfl obtained null
    obtain ⟨l', used, result⟩ := useTag_ends (s := u) (h := true)
      (l := { size := size, index := i, tag := tag })
    exact ⟨l', malloc_begins free searched (.seq granted used), result⟩

section Free

variable {s : Heap} {l : Locals} {h : Bool}

theorem meltLoop_ends {fuel tag : Nat} {s' : Heap} (melted : s.meltLoop fuel l.tag = some (s', tag)) :
    Ends hookedProgram (.loop .leftFree (.block [.act .meltLeft, .act .removeTag])) (s, l, h)
      (s', { l with tag := tag }, h) false := by
  induction fuel generalizing s l with
  | zero => contradiction
  | succ fuel ih =>
    rw [Heap.meltLoop] at melted
    by_cases more : s.get .splitLeft l.tag ≠ 0 ∧ s.index (s.get .splitLeft l.tag) ≥ 0
    · rw [if_pos more] at melted
      have round : Ends hookedProgram (.block [.act .meltLeft, .act .removeTag]) (s, l, h)
          ((s.meltLeft l.tag).1.removeTag (s.meltLeft l.tag).2, { l with tag := (s.meltLeft l.tag).2 }, h)
          false := .seq (.act_eq (w := ()) rfl) (.act_eq (w := ()) rfl)
      exact .loopRound (decide_eq_true more) round
        (ih (l := { l with tag := (s.meltLeft l.tag).2 }) melted)
    · rw [if_neg more] at melted
      obtain ⟨rfl, rfl⟩ := Prod.mk.inj (Option.some.inj melted)
      exact .loopDone (decide_eq_false more)

theorem absorbLoop_ends {fuel : Nat} {s' : Heap} (absorbed : s.absorbLoop fuel l.tag = some s') :
    Ends hookedProgram (.loop .rightFree (.act .absorbRight)) (s, l, h) (s', l, h) false := by
  induction fuel generalizing s with
  | zero => contradiction
  | succ fuel ih =>
    rw [Heap.absorbLoop] at absorbed
    by_cases more : s.get .splitRight l.tag ≠ 0 ∧ s.index (s.get .splitRight l.tag) ≥ 0
    · rw [if_pos more] at absorbed
      have round : Ends hookedProgram (.act .absorbRight) (s, l, h) (s.absorbRight l.tag, l, h) false :=
        .act_eq (w := ()) rfl
      exact .loopRound (decide_eq_true more) round (ih absorbed)
    · rw [if_neg more] at absorbed
      obtain rfl := Option.some.inj absorbed
      exact .loopDone (decide_eq_false more)

theorem putBack_ends {s' : Heap} (done : s.putBack l.tag .aliased = some s') : ∃ l' r, Ends hookedProgram
    (.block [.act .realIndex,
      .ite .complete
        (.block [
          .ite .full (.block [.act .liballocFree, .call .liballocUnlock, .ret]) .skip,
          .act .countComplete])
        .skip,
      .act .insertTag, .call .liballocUnlock]) (s, l, h) (s', l', false) r := by
  unfold Heap.putBack at done
  dsimp only at done
  by_cases whole : s.complete l.tag
  · rw [if_pos whole] at done
    by_cases full : s.completePages (bucket (wsub (s.get .realSize l.tag) sizeofTag)) = maxComplete
    · rw [if_pos full] at done
      obtain ⟨r, answer, rfl⟩ := Option.map_eq_some_iff.mp done
      let u : Locals := { l with index := bucket (wsub (s.get .realSize l.tag) sizeofTag) }
      have given : Ends hookedProgram (.act .liballocFree) (s, u, h) (r.1, u, h) false := by
        refine .act_eq (w := ()) ?_
        simp only [hookedProgram, HeapAct.run, HeapAct.answer, u, answer, aliased_free_rest answer]
      exact ⟨_, _, .seq (.act ()) (.seqReturns (.yes (complete_holds whole) (.seqReturns
        (.yes (decide_eq_true full) (.seq given (.seq liballocUnlock_ends .ret))))))⟩
    · rw [if_neg full] at done
      obtain rfl := Option.some.inj done
      exact ⟨_, _, .seq (.act ()) (.seq (.yes (complete_holds whole) (.seq
        (.no (decide_eq_false full) .skip) (.act ()))) (.seq (.act ()) liballocUnlock_ends))⟩
  · rw [if_neg whole] at done
    obtain rfl := Option.some.inj done
    exact ⟨_, _, .seq (.act ()) (.seq (.no (complete_fails whole) .skip)
      (.seq (.act ()) liballocUnlock_ends))⟩

end Free

theorem free_ends {s s' : Heap} {ptr : Nat} (call : s.free ptr .aliased = some s') :
    ∃ l' r, Ends hookedProgram RiseOS.free (s, { p := ptr }, false) (s', l', false) r := by
  unfold Heap.free at call
  by_cases null : ptr = 0
  · rw [if_pos null] at call
    obtain rfl := Option.some.inj call
    exact ⟨_, _, .seqReturns (.yes (decide_eq_true null) .ret)⟩
  · rw [if_neg null] at call
    obtain ⟨m, locked, opened⟩ := Option.bind_eq_some_iff.mp call
    obtain ⟨free, rfl⟩ := liballocLock_some locked
    have front : Ends hookedProgram (.ite .ptrNull .ret .skip) (s, { p := ptr }, false)
        (s, { p := ptr }, false) false := .no (decide_eq_false null) .skip
    dsimp only at opened
    split at opened
    · rename_i magic
      obtain rfl := Option.some.inj opened
      exact ⟨_, _, .seq front (.seq (liballocLock_ends free) (.seq (.act ()) (.seqReturns
        (.yes (decide_eq_true magic) (.seq liballocUnlock_ends .ret)))))⟩
    · rename_i magic
      obtain ⟨⟨u, tag⟩, melted, rest⟩ := Option.bind_eq_some_iff.mp opened
      obtain ⟨v, absorbed, done⟩ := Option.bind_eq_some_iff.mp rest
      obtain ⟨l', r, back⟩ := putBack_ends (h := true) (l := { p := ptr, tag := tag }) done
      exact ⟨l', r, .seq front (.seq (liballocLock_ends free) (.seq (.act ()) (.seq
        (.no (decide_eq_false magic) .skip) (.seq (meltLoop_ends melted)
          (.seq (absorbLoop_ends absorbed) back)))))⟩

section Realloc

variable {s s' : Heap} {p size : Nat}

theorem realloc_zero_ends (none : size = 0) (freed : s.free p .aliased = some s') :
    ∃ l', Ends hookedProgram RiseOS.realloc (s, { size := size, p := p }, false) (s', l', false) true ∧
      l'.result = 0 := by
  obtain ⟨l', r, back⟩ := free_ends freed
  exact ⟨_, .seqReturns (.yes (decide_eq_true none) (.seq (.call back) (.seq (.act ()) .ret))), rfl⟩

theorem realloc_null_ends {ptr : Nat} (some_bytes : size ≠ 0) (null : p = 0)
    (made : s.malloc size .aliased = some (s', ptr)) :
    ∃ l', Ends hookedProgram RiseOS.realloc (s, { size := size, p := p }, false) (s', l', false) true ∧
      l'.result = ptr := by
  obtain ⟨l', ends, result⟩ := malloc_ends made
  exact ⟨_, .seq (.no (decide_eq_false some_bytes) .skip) (.seqReturns
    (.yes (decide_eq_true null) (.seq (.call ends) .ret))), result⟩

/-- The section in which realloc reads the old size is over before malloc and free
enter theirs. -/
theorem realloc_copies_ends {m : Heap} {ptr : Nat} (some_bytes : size ≠ 0) (node : p ≠ 0)
    (free : s.lock = 0)
    (made : ({ s with lock := 1 } : Heap).liballocUnlock.malloc size .aliased = some (m, ptr))
    (freed : ({ m with mem := (liballocMemcpy m.mem ptr p
      (if s.get .size (wsub p sizeofTag) > size then size
        else s.get .size (wsub p sizeofTag))).1 } : Heap).free p .aliased = some s') :
    ∃ l', Ends hookedProgram RiseOS.realloc (s, { size := size, p := p }, false) (s', l', false) true ∧
      l'.result = ptr := by
  obtain ⟨l₁, mallocEnds, result⟩ := malloc_ends made
  obtain ⟨l₂, r, freeEnds⟩ := free_ends freed
  have front : Ends hookedProgram (.ite .sizeZero (.block [.call .free, .act .returnNull, .ret]) .skip)
      (s, { size := size, p := p }, false) (s, { size := size, p := p }, false) false :=
    .no (decide_eq_false some_bytes) .skip
  have next : Ends hookedProgram (.ite .ptrNull (.block [.call .malloc, .ret]) .skip)
      (s, { size := size, p := p }, false) (s, { size := size, p := p }, false) false :=
    .no (decide_eq_false node) .skip
  subst result
  exact ⟨_, .seq front (.seq next (.seq (liballocLock_ends free) (.seq (.act ()) (.seq (.act ())
    (.seq liballocUnlock_ends (.seq (.act ()) (.seq (.call mallocEnds) (.seq (.act ()) (.seq (.act ())
      (.seq (.call freeEnds) (.seq (.act ()) .ret))))))))))), rfl⟩

end Realloc

theorem realloc_ends {s s' : Heap} {p size ptr : Nat} {stores : List Nat}
    (call : s.realloc p size .aliased = some (s', ptr, stores)) :
    ∃ l', Ends hookedProgram RiseOS.realloc (s, { size := size, p := p }, false) (s', l', false) true ∧
      l'.result = ptr := by
  unfold Heap.realloc at call
  by_cases none : size = 0
  · rw [if_pos none] at call
    obtain ⟨m, freed, same⟩ := Option.map_eq_some_iff.mp call
    obtain ⟨rfl, rest⟩ := Prod.mk.inj same
    obtain ⟨rfl, _⟩ := Prod.mk.inj rest
    exact realloc_zero_ends none freed
  · rw [if_neg none] at call
    by_cases null : p = 0
    · rw [if_pos null] at call
      obtain ⟨⟨m, q⟩, made, same⟩ := Option.map_eq_some_iff.mp call
      obtain ⟨rfl, rest⟩ := Prod.mk.inj same
      obtain ⟨rfl, _⟩ := Prod.mk.inj rest
      exact realloc_null_ends none null made
    · rw [if_neg null] at call
      obtain ⟨m, locked, opened⟩ := Option.bind_eq_some_iff.mp call
      obtain ⟨free, rfl⟩ := liballocLock_some locked
      obtain ⟨⟨u, q⟩, made, copied⟩ := Option.bind_eq_some_iff.mp opened
      obtain ⟨v, freed, same⟩ := Option.map_eq_some_iff.mp copied
      obtain ⟨rfl, rest⟩ := Prod.mk.inj same
      obtain ⟨rfl, _⟩ := Prod.mk.inj rest
      exact realloc_copies_ends none null free made freed

section Alone

variable {Tid : Type} [DecidableEq Tid] (m : HeapMachine Tid) (t : Tid)

/-- Thread `t` calls `f`, is not interrupted, and leaves the heap `s'`; the other threads
stay where they are. -/
def RunsAlone (f : HeapFn) (args : Locals) (s' : Heap) (result : Nat → Prop) : Prop :=
  ∃ (ws : List Outcome) (l : Locals), result l.result ∧
    Runs.run heapProgram.step m ((t, .begin f args) :: ws.map fun w => (t, .go w)) =
      some { data := s', thread := Function.update m.thread t ⟨[], l, false⟩ }

variable {m t} (idle : (m.thread t).code = []) (unheld : (m.thread t).holds = false)
include idle unheld

theorem runsAlone_of_ends {f : HeapFn} {args l : Locals} {s' : Heap} {r : Bool} {result : Nat → Prop}
    (entry : f.entry = true) (ends : Ends hookedProgram f.body (m.data, args, false) (s', l, false) r)
    (ok : result l.result) : RunsAlone m t f args s' result := by
  have : Inhabited Outcome := ⟨⟨m.data.mem, m.data.vmm, 0⟩⟩
  obtain ⟨ws, ran⟩ := run_begin m t idle unheld entry (ends_answered ends)
  exact ⟨ws, l, ok, ran⟩

/-- The malloc that threads run is the function on heaps. -/
theorem malloc_alone {s' : Heap} {size ptr : Nat} (call : m.data.malloc size .aliased = some (s', ptr)) :
    RunsAlone m t .malloc { size := size } s' (fun result => result = ptr) := by
  obtain ⟨l, ends, result⟩ := malloc_ends call
  exact runsAlone_of_ends idle unheld rfl ends result

theorem free_alone {s' : Heap} {ptr : Nat} (call : m.data.free ptr .aliased = some s') :
    RunsAlone m t .free { p := ptr } s' (fun _ => True) := by
  obtain ⟨l, r, ends⟩ := free_ends call
  exact runsAlone_of_ends idle unheld rfl ends trivial

theorem realloc_alone {s' : Heap} {p size ptr : Nat} {stores : List Nat}
    (call : m.data.realloc p size .aliased = some (s', ptr, stores)) :
    RunsAlone m t .realloc { size := size, p := p } s' (fun result => result = ptr) := by
  obtain ⟨l, ends, result⟩ := realloc_ends call
  exact runsAlone_of_ends idle unheld rfl ends result

end Alone

end RiseOS
