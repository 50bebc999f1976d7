import RiseOS.Heap.Exclusive

/-! Which calls of the page hooks a step makes. -/
namespace RiseOS
open Words Runs Links Tiling

theorem useTag_vmm (s : Heap) (tag size : Nat) : (s.useTag tag size).vmm = s.vmm := by
  unfold Heap.useTag
  dsimp only
  split
  · exact (insertTag_rest _ _ _).1.1.trans (cutTag_rest _ _).1.1
  · rfl

theorem obtainTag_vmm {s s' : Heap} {size found tag : Nat}
    (call : s.obtainTag size found = some (s', tag)) : s'.vmm = s.vmm ∨ found = 0 ∧
      ∃ r, s.vmm.liballocAlloc (neededPages (wrap (sizeofTag + size))) = some (s'.vmm, r) := by
  unfold Heap.obtainTag at call
  split at call
  · rename_i null
    rw [allocateNewTag_apart] at call
    obtain ⟨⟨v, r⟩, asked, made⟩ := Option.map_eq_some_iff.mp call
    dsimp only at made
    split at made
    · obtain ⟨rfl, _⟩ := Prod.mk.inj made
      exact .inr ⟨null, r, asked⟩
    · obtain ⟨rfl, _⟩ := Prod.mk.inj made
      exact .inr ⟨null, r, asked⟩
  · obtain ⟨rfl, _⟩ := Prod.mk.inj (Option.some.inj call)
    have kept := (removeTag_globals s found).1
    left
    split
    · rw [vmm_setCompletePages]
      exact kept
    · exact kept

theorem malloc_vmm {s s' : Heap} {size p : Nat} (call : s.malloc size = some (s', p)) :
    s'.vmm = s.vmm ∨
      s.entered.search size loopFuel (s.entered.freePages (bucket size)) = some 0 ∧
      ∃ r, s.vmm.liballocAlloc (neededPages (wrap (sizeofTag + size))) = some (s'.vmm, r) := by
  have unlocked : s.lock = 0 := by
    obtain ⟨_, locked, _⟩ := Option.bind_eq_some_iff.mp call
    exact (liballocLock_some locked).1
  rw [malloc_entered unlocked] at call
  simp only [Option.bind_eq_some_iff, Option.map_eq_some_iff] at call
  obtain ⟨found, searched, ⟨u, tag⟩, obtained, result⟩ := call
  have outcome : u.vmm = s.vmm ∨
      s.entered.search size loopFuel (s.entered.freePages (bucket size)) = some 0 ∧
      ∃ r, s.vmm.liballocAlloc (neededPages (wrap (sizeofTag + size))) = some (u.vmm, r) := by
    rw [← entered_vmm s]
    rcases obtainTag_vmm obtained with same | ⟨rfl, asked⟩
    · exact .inl same
    · exact .inr ⟨searched, asked⟩
  split at result
  · obtain ⟨rfl, _⟩ := Prod.mk.inj result
    exact outcome
  · obtain ⟨rfl, _⟩ := Prod.mk.inj result
    unfold Heap.liballocUnlock
    rw [useTag_vmm]
    exact outcome

theorem meltLoop_vmm {s m : Heap} {fuel tag tag' : Nat} (call : s.meltLoop fuel tag = some (m, tag')) :
    m.vmm = s.vmm := by
  induction fuel generalizing s tag with
  | zero => cases call
  | succ fuel ih =>
    unfold Heap.meltLoop at call
    split at call
    · exact (ih call).trans ((removeTag_globals _ _).1.trans (meltLeft_rest s tag).1.1)
    · obtain ⟨rfl, _⟩ := Prod.mk.inj (Option.some.inj call)
      rfl

theorem absorbLoop_vmm {s m : Heap} {fuel tag : Nat} (call : s.absorbLoop fuel tag = some m) :
    m.vmm = s.vmm := by
  induction fuel generalizing s with
  | zero => cases call
  | succ fuel ih =>
    unfold Heap.absorbLoop at call
    split at call
    · exact (ih call).trans (absorbRight_rest s tag).1.1
    · obtain rfl := Option.some.inj call
      rfl

theorem melted_vmm {s m : Heap} {tag tag' : Nat} (call : s.melted tag = some (m, tag')) :
    m.vmm = s.vmm := by
  obtain ⟨⟨a, left⟩, melted, rest⟩ := Option.bind_eq_some_iff.mp call
  obtain ⟨m', absorbed, same⟩ := Option.map_eq_some_iff.mp rest
  obtain ⟨rfl, _⟩ := Prod.mk.inj same
  exact (absorbLoop_vmm absorbed).trans (meltLoop_vmm melted)

/-- free(ptr) calls liballoc_free(tag, pages), in the state `m`. -/
structure HandsBack (s : Heap) (ptr : Nat) (m : Heap) (tag pages : Nat) : Prop where
  unlocked : s.lock = 0
  magic : s.get .magic (wsub ptr sizeofTag) = liballocMagic
  melted : ({ s with lock := 1 } : Heap).melted (wsub ptr sizeofTag) = some (m, tag)
  complete : m.complete tag
  full : m.completePages (bucket (wsub (m.get .realSize tag) sizeofTag)) = maxComplete
  asked : pages = neededPages (m.get .realSize tag)

/-- putBack calls the hook for a chunk that is whole, when its list is full. -/
theorem putBack_calls {hooks : PageHooks} {m s' : Heap} {tag : Nat}
    (call : m.putBack tag hooks = some s') : s'.vmm = m.vmm ∨
      (m.complete tag ∧ m.completePages (bucket (wsub (m.get .realSize tag) sizeofTag)) = maxComplete ∧
        ∃ r, hooks.free m tag (neededPages (m.get .realSize tag)) = some r ∧
          s' = r.1.liballocUnlock) := by
  have listed : ∀ (w : Heap) (index : Int), (w.insertTag tag index).liballocUnlock.vmm = w.vmm :=
    fun w index => (insertTag_rest w tag index).1.1
  unfold Heap.putBack at call
  dsimp only at call
  split at call
  · rename_i complete
    split at call
    · rename_i full
      obtain ⟨r, asked, same⟩ := Option.map_eq_some_iff.mp call
      exact .inr ⟨complete, full, r, asked, same.symm⟩
    · obtain rfl := Option.some.inj call
      exact .inl (listed _ _)
  · obtain rfl := Option.some.inj call
    exact .inl (listed m _)

/-- free calls the hook just where `HandsBack` says. -/
theorem free_calls {hooks : PageHooks} {s s' : Heap} {ptr : Nat} (call : s.free ptr hooks = some s') :
    s'.vmm = s.vmm ∨ ∃ m tag pages r, HandsBack s ptr m tag pages ∧
      hooks.free m tag pages = some r ∧ s' = r.1.liballocUnlock := by
  unfold Heap.free at call
  split at call
  · obtain rfl := Option.some.inj call
    exact .inl rfl
  · obtain ⟨l, locked, call⟩ := Option.bind_eq_some_iff.mp call
    obtain ⟨unlocked, rfl⟩ := liballocLock_some locked
    dsimp only at call
    split at call
    · obtain rfl := Option.some.inj call
      exact .inl rfl
    · rename_i magic
      simp only [Option.bind_eq_some_iff] at call
      obtain ⟨⟨a, tag⟩, meltedA, m, absorbed, put⟩ := call
      have reached : ({ s with lock := 1 } : Heap).melted (wsub ptr sizeofTag) = some (m, tag) := by
        unfold Heap.melted
        rw [meltedA, Option.bind_some, absorbed]
        rfl
      rcases putBack_calls put with same | ⟨complete, full, r, asked, back⟩
      · have vmm : m.vmm = ({ s with lock := 1 } : Heap).vmm := melted_vmm reached
        exact .inl (same.trans vmm)
      · exact .inr ⟨m, tag, _, r, ⟨unlocked, not_not.mp magic, reached, complete, full, rfl⟩, asked,
          back⟩

theorem free_vmm {s s' : Heap} {ptr : Nat} (call : s.free ptr = some s') : s'.vmm = s.vmm ∨
    ∃ tag pages r, s.vmm.liballocFree tag (pages : Nat) = some (s'.vmm, r) := by
  rcases free_calls call with same | ⟨m, tag, pages, r, back, asked, rfl⟩
  · exact .inl same
  · obtain ⟨⟨v, r⟩, freed, rfl⟩ := Option.map_eq_some_iff.mp asked
    have vmm : m.vmm = ({ s with lock := 1 } : Heap).vmm := melted_vmm back.melted
    rw [vmm] at freed
    exact .inr ⟨tag, pages, r, freed⟩

/-- All that a step does to the pages: nothing, one request, or one chunk given back. -/
theorem HeapInv.step_vmm {s s' : Client} {T F : Finset Nat} (h : HeapInv s T F) {op : ClientOp}
    (served : Served s op) (step : clientStep s op = some s') :
    s'.heap.vmm = s.heap.vmm ∨
    (∃ size pages r : Nat, op = .malloc size ∧ 16 ≤ pages ∧ (pages ≤ 1025 ∨ s.heap.vmm.refuses pages) ∧
      s.heap.vmm.liballocAlloc pages = some (s'.heap.vmm, r)) ∨
    (∃ tag base pages r, op = .free (32 + tag) ∧ 32 + tag ∈ s.live.map Prod.fst ∧
      GivesBack s.heap T F tag base pages ∧
      s.heap.vmm.liballocFree base pages = some (s'.heap.vmm, r)) := by
  cases op with
  | malloc size =>
    obtain ⟨⟨heap, p⟩, call, rfl⟩ := Option.map_eq_some_iff.mp step
    rcases malloc_vmm call with same | ⟨_, r, asked⟩
    · exact .inl same
    · refine .inr (.inl ⟨size, _, r, rfl, (neededPages_enough _).1, ?_, asked⟩)
      rcases served with ⟨low, few⟩ | ⟨_, refused⟩
      · rw [entered_vmm] at few
        have usage : wrap (sizeofTag + size) = 32 + size := wrap_eq (n := 32 + size) low
        rw [usage]
        exact few
      · rw [entered_vmm] at refused
        exact .inr refused
  | free ptr =>
    obtain ⟨heap, call, rfl⟩ := Option.map_eq_some_iff.mp step
    by_cases null : ptr = 0
    · have same : some s.heap = some heap := by
        rw [← call, Heap.free, if_pos null]
      exact .inl (Option.some.inj same ▸ rfl)
    · have live := served.resolve_left null
      obtain ⟨b, mem, rfl⟩ := List.mem_map.mp live
      obtain ⟨tag, memT, free, pointer, _, _⟩ := h.inUse b mem
      obtain ⟨heap', T', F', call', _, _, _, returned⟩ := h.ready.free (h.started mem) memT free
      rw [pointer] at call live ⊢
      obtain rfl := Option.some.inj (call.symm.trans call')
      rcases returned with same | ⟨base, pages, r, back, asked⟩
      · exact .inl same
      · exact .inr (.inr ⟨tag, base, pages, r, rfl, live, back, asked⟩)
  | write a v =>
    obtain rfl := Option.some.inj step
    exact .inl rfl

theorem heap_run {ok : Client → ClientOp → Prop} {J : Vmm → Prop}
    (served : ∀ s op, J s.heap.vmm → ok s op → Served s op)
    (keeps : ∀ s s' op T F, HeapInv s T F → J s.heap.vmm → ok s op → clientStep s op = some s' →
      J s'.heap.vmm)
    {start : Client} {T F : Finset Nat} (inv : HeapInv start T F) (initial : J start.heap.vmm)
    (ops : List ClientOp) (permitted : Permitted clientStep ok start ops) :
    (∃ s, run clientStep start ops = some s) ∧
      Always clientStep (fun s => (∃ T F, HeapInv s T F) ∧ J s.heap.vmm) start ops := by
  have step : ∀ s op, (∃ T F, HeapInv s T F) ∧ J s.heap.vmm → ok s op →
      ∃ s', clientStep s op = some s' ∧ (∃ T F, HeapInv s' T F) ∧ J s'.heap.vmm := by
    rintro s op ⟨⟨T, F, inv⟩, j⟩ allowed
    obtain ⟨s', result, inv'⟩ := inv.step op (served s op j allowed)
    exact ⟨s', result, inv', keeps s s' op T F inv j allowed result⟩
  obtain ⟨s, ran, _⟩ := run_invariant clientStep ok _ step start ops ⟨⟨T, F, inv⟩, initial⟩ permitted
  refine ⟨⟨s, ran⟩, ?_⟩
  refine always_invariant clientStep ok _ ?_ start ops ⟨⟨T, F, inv⟩, initial⟩ permitted
  intro s op s' here allowed result
  obtain ⟨t, same, after⟩ := step s op here allowed
  rw [result] at same
  exact Option.some.inj same ▸ after

end RiseOS
