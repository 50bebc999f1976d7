import RiseOS.Paging.Hooks
import RiseOS.Paging.Init

/-! What a growing heap writes: page tables in use, and the block that
allocate_page clears for a table of its own. -/
namespace RiseOS
open Words Runs

def Event.written : Event → Set Nat
  | .store ptr => bytes ptr 4
  | .cleared ptr len => bytes ptr len
  | .newTable _ | .frame _ | .mapped _ _ => ∅

def Vmm.heap (s : Vmm) : Set Nat := Set.Ico s.heapStart s.heapEnd

/-- The events of one call spare the chunks inside the heap, and what they take
and clear for page tables is outside the heap and no larger than a table. -/
structure GrowsQuietly (s : Vmm) (events : List Event) : Prop where
  chunks : ∀ c ∈ outstanding s.calls, bytes c.1 (regionSize c.2) ⊆ s.heap →
    ∀ e ∈ events, Disjoint e.written (bytes c.1 (regionSize c.2))
  tables : ∀ table, .newTable table ∈ events → Disjoint (bytes table sizeofPageTable) s.heap
  clears : ∀ ptr len, .cleared ptr len ∈ events → Disjoint (bytes ptr len) s.heap ∧
    ∃ table, .newTable table ∈ events ∧ bytes ptr len ⊆ bytes table sizeofPageTable

def InFirstSlot (s : Vmm) (pages : Int) : Prop :=
  s.heapCur / 4096 ≤ wrap (s.heapCur + regionSize pages) / 4096 →
    wrap (s.heapCur + regionSize pages) < 2 ^ 22

instance (s : Vmm) (pages : Int) : Decidable (InFirstSlot s pages) :=
  inferInstanceAs (Decidable (_ → _))

def StaysInFirstSlot (s : Vmm) : HookOp → Prop
  | .alloc pages => InFirstSlot s pages
  | .free ptr _ => ptr < 2 ^ 32

instance (s : Vmm) (op : HookOp) : Decidable (StaysInFirstSlot s op) := by
  cases op with
  | alloc pages => exact inferInstanceAs (Decidable (InFirstSlot s pages))
  | free ptr pages => exact inferInstanceAs (Decidable (ptr < 2 ^ 32))

theorem inFirstSlot_iff (s : Vmm) (pages : Int) : InFirstSlot s pages ↔
    ∀ va ∈ regionPages s.heapCur (wrap (s.heapCur + regionSize pages)), pagedirIndex va = 0 := by
  have word := wrap_lt (s.heapCur + regionSize pages)
  unfold InFirstSlot
  constructor
  · intro first va hva
    rw [mem_regionPages] at hva
    rw [pagedirIndex_eq]
    have := first (by omega)
    omega
  · intro all ordered
    have last := all (wrap (s.heapCur + regionSize pages) / 4096 * 4096)
      ((mem_regionPages _ _ _).mpr (by omega))
    rw [pagedirIndex_eq] at last
    omega

/-- paging_init's table is the only one. -/
structure OneTable (table : Nat) (s : Vmm) : Prop where
  first : s.dir.tables 0 = table
  others : ∀ i, i ≠ 0 → s.dir.tables i = 0
  nonzero : table ≠ 0
  below : table + sizeofPageTable ≤ s.heapStart
  word : s.heapStart < 2 ^ 32

theorem pagingInit_oneTable (s : Vmm) (room : BootRoom s) : OneTable s.bootTable s.pagingInit := by
  have tables := pagingInit_tables s room
  obtain ⟨start, _⟩ := pagingInit_heap s room
  have fits := room.2
  have behind : s.bootTable = pageUp s.pmm.placementaddr + 0x2000 := rfl
  refine ⟨?_, ?_, ?_, ?_, ?_⟩
  · rw [tables, Function.update_self]
  · intro i other
    rw [tables, Function.update_of_ne other]
  · omega
  · rw [start, sizeofPageTable]
    omega
  · rw [start]
    omega

theorem OneTable.congr {table : Nat} {s t : Vmm} (inv : OneTable table s) (dir : t.dir = s.dir)
    (start : t.heapStart = s.heapStart) : OneTable table t :=
  ⟨dir ▸ inv.first, dir ▸ inv.others, inv.nonzero, start ▸ inv.below, start ▸ inv.word⟩

/-- Events that only store into the page table at `table`. -/
def StoresInto (table : Nat) (events : List Event) : Prop :=
  ∀ e ∈ events, e.written ⊆ bytes table sizeofPageTable ∧ (∀ t, e ≠ .newTable t) ∧
    ∀ ptr len, e ≠ .cleared ptr len

theorem StoresInto.append (table : Nat) (es fs : List Event) (he : StoresInto table es)
    (hf : StoresInto table fs) : StoresInto table (es ++ fs) := by
  intro e h
  rcases List.mem_append.mp h with h | h
  · exact he e h
  · exact hf e h

theorem storesInto_nil (table : Nat) : StoresInto table [] := by
  intro e h
  cases h

theorem pageAddress_inside {table i : Nat} (entry : i < 1024) (word : table + 4096 < 2 ^ 32) :
    bytes (pageAddress table i) 4 ⊆ bytes table sizeofPageTable := by
  rw [pageAddress, wrap_eq (n := table + 4 * i) (by omega), bytes, bytes, sizeofPageTable]
  exact Set.Ico_subset_Ico (by omega) (by omega)

theorem allocatePage_first (table : Nat) (s : Vmm) (va : Nat) (inv : OneTable table s)
    (slot : pagedirIndex va = 0) :
    OneTable table (s.allocatePage va) ∧ (s.allocatePage va).newTable = s.newTable ∧
      Grows (StoresInto table) s (s.allocatePage va) := by
  have same : s.withTable (pagedirIndex va) = s := by
    rw [slot]
    exact if_neg (inv.first ▸ inv.nonzero)
  have entry : pagetblIndex va < 1024 := by
    rw [pagetblIndex_eq]
    omega
  rw [allocatePage_eq, same, slot, inv.first]
  split
  · exact ⟨inv, rfl, Grows.refl (storesInto_nil table) s⟩
  · refine ⟨inv.congr (mapPage_dir _ _ _) rfl, ?_, _, mapPage_trace _ _ _, ?_⟩
    · unfold Vmm.newTable Pmm.dumballoc
      rw [mapPage_pmm]
      rcases kallocPageFrame_cases s.pmm with ⟨_, _, _, _, _, result⟩ | ⟨_, _, result⟩
      · rw [result]
      · rw [result]
        rfl
    · have below := inv.below
      have word := inv.word
      rw [sizeofPageTable] at below
      simp [StoresInto, Event.written, pageAddress_inside entry (by omega : table + 4096 < 2 ^ 32)]

theorem first_slot_grows (table : Nat) (vas : List Nat) (s : Vmm) (inv : OneTable table s)
    (slots : ∀ va ∈ vas, pagedirIndex va = 0) :
    OneTable table (vas.foldl Vmm.allocatePage s) ∧
      (vas.foldl Vmm.allocatePage s).newTable = s.newTable ∧
      Grows (StoresInto table) s (vas.foldl Vmm.allocatePage s) := by
  refine foldl_keeps Vmm.allocatePage
    (fun t => OneTable table t ∧ t.newTable = s.newTable ∧ Grows (StoresInto table) s t) vas ?_ s
    ⟨inv, rfl, Grows.refl (storesInto_nil table) s⟩
  rintro t va hva ⟨one, same, grown⟩
  obtain ⟨one', same', step⟩ := allocatePage_first table t va one (slots va hva)
  exact ⟨one', same'.trans same, grown.trans (StoresInto.append table) step⟩

def TakesTable (table : Nat) (events : List Event) : Prop :=
  .newTable table ∈ events ∧ .cleared table (1024 * sizeofPageTable) ∈ events

theorem createTable_takes (s : Vmm) (i : Nat) :
    Grows (TakesTable s.newTable) s (s.createTable i) :=
  ⟨_, createTable_trace s i, by simp, by simp⟩

/-- The first page behind the slot makes allocate_page clear 4 MiB from the new
table on. -/
theorem crossing_clears (table : Nat) (vas : List Nat) (s : Vmm) (inv : OneTable table s)
    (crossing : ∃ va ∈ vas, pagedirIndex va ≠ 0) :
    Grows (TakesTable s.newTable) s (vas.foldl Vmm.allocatePage s) := by
  induction vas generalizing s with
  | nil =>
    obtain ⟨va, none, _⟩ := crossing
    cases none
  | cons va rest ih =>
    by_cases slot : pagedirIndex va = 0
    · obtain ⟨one, same, es, he, _⟩ := allocatePage_first table s va inv slot
      obtain ⟨va', inside, other⟩ := crossing
      have later : va' ∈ rest := by
        rcases List.mem_cons.mp inside with rfl | later
        · exact absurd slot other
        · exact later
      obtain ⟨fs, hf, taken, cleared⟩ := ih (s.allocatePage va) one ⟨va', later, other⟩
      rw [same] at taken cleared
      exact ⟨es ++ fs, by rw [List.foldl_cons, hf, he, List.append_assoc],
        List.mem_append_right es taken, List.mem_append_right es cleared⟩
    · have absent : s.dir.tables (pagedirIndex va) = 0 := inv.others _ slot
      have created : s.withTable (pagedirIndex va) = s.createTable (pagedirIndex va) := if_pos absent
      obtain ⟨fs, hf, _⟩ : Grows (fun _ => True) (s.createTable (pagedirIndex va))
          (s.allocatePage va) := by
        rw [allocatePage_eq, created]
        split
        · exact Grows.refl trivial _
        · exact ⟨_, mapPage_trace _ _ _, trivial⟩
      obtain ⟨gs, hg, _⟩ := foldl_grows AllInstalled.nil AllInstalled.append
        Vmm.allocatePage allocatePage_installs rest (s.allocatePage va)
      obtain ⟨es, he, taken, cleared⟩ := createTable_takes s (pagedirIndex va)
      exact ⟨es ++ (fs ++ gs), by rw [List.foldl_cons, hg, hf, he, List.append_assoc, List.append_assoc],
        List.mem_append_left _ taken, List.mem_append_left _ cleared⟩

theorem first_slot_quiet (table : Nat) (s : Vmm) (events : List Event) (inv : OneTable table s)
    (into : StoresInto table events) : GrowsQuietly s events := by
  have apart : Disjoint (bytes table sizeofPageTable) s.heap := by
    rw [bytes, Vmm.heap, Set.Ico_disjoint_Ico]
    have := inv.below
    omega
  refine ⟨?_, ?_, ?_⟩
  · intro c _ inside e he
    exact Set.disjoint_of_subset (into e he).1 inside apart
  · intro t ht
    exact absurd rfl ((into _ ht).2.1 t)
  · intro ptr len h
    exact absurd rfl ((into _ h).2.2 ptr len)

theorem clearing_not_quiet (s : Vmm) (events : List Event) (ptr : Nat)
    (cleared : .cleared ptr (1024 * sizeofPageTable) ∈ events) : ¬ GrowsQuietly s events := by
  intro quiet
  obtain ⟨_, table, _, inside⟩ := quiet.clears _ _ cleared
  have size : sizeofPageTable = 4096 := rfl
  have low : ptr ∈ bytes table sizeofPageTable := inside ⟨Nat.le_refl _, by omega⟩
  have high : ptr + 4096 ∈ bytes table sizeofPageTable := inside ⟨by omega, by omega⟩
  have bound := high.2
  have start := low.1
  omega

theorem first_slot_call (table : Nat) (s : Vmm) (pages : Int) (one : OneTable table s)
    (word : s.heapCur < 2 ^ 32) (accepted : ¬ s.refuses pages)
    (below : wrap (s.heapCur + regionSize pages) < 0xFFFFF000) (first : InFirstSlot s pages) :
    ∃ t events, s.liballocAlloc pages = some (t, s.heapCur) ∧ t.trace = s.trace ++ events ∧
      OneTable table t ∧ t.newTable = s.newTable ∧ t.heapStart = s.heapStart ∧
      t.heapEnd = s.heapEnd ∧ t.heapCur = wrap (s.heapCur + regionSize pages) ∧
      t.calls = s.calls ++ [.alloc pages s.heapCur] ∧ GrowsQuietly s events := by
  obtain ⟨one', same, events, grown, into⟩ :=
    first_slot_grows table _ s one ((inFirstSlot_iff s pages).mp first)
  have heap := foldl_heap Vmm.allocatePage allocatePage_heap
    (regionPages s.heapCur (wrap (s.heapCur + regionSize pages))) s
  rw [liballocAlloc_eq s pages word, if_neg accepted, if_pos below]
  exact ⟨_, events, rfl, grown, one'.congr rfl rfl, same, heap.1, heap.2.1, rfl, rfl,
    first_slot_quiet table s events one into⟩

theorem crossing_call (table : Nat) (s : Vmm) (pages : Int) (one : OneTable table s)
    (word : s.heapCur < 2 ^ 32) (accepted : ¬ s.refuses pages)
    (below : wrap (s.heapCur + regionSize pages) < 0xFFFFF000) (leaves : ¬ InFirstSlot s pages) :
    ∃ t events, s.liballocAlloc pages = some (t, s.heapCur) ∧ t.trace = s.trace ++ events ∧
      TakesTable s.newTable events ∧ ¬ GrowsQuietly s events := by
  rw [inFirstSlot_iff] at leaves
  push Not at leaves
  obtain ⟨events, grown, taken, cleared⟩ := crossing_clears table _ s one leaves
  rw [liballocAlloc_eq s pages word, if_neg accepted, if_pos below]
  exact ⟨_, events, rfl, grown, ⟨taken, cleared⟩, clearing_not_quiet s events _ cleared⟩

theorem liballocAlloc_accepted (s t : Vmm) (pages : Int) (r : Nat) (word : s.heapCur < 2 ^ 32)
    (call : s.liballocAlloc pages = some (t, r)) (success : r ≠ 0) :
    ¬ s.refuses pages ∧ wrap (s.heapCur + regionSize pages) < 0xFFFFF000 := by
  have succeeds : Succeeds s pages := ⟨t, r, call, success⟩
  exact ((succeeds_iff s pages word).mp succeeds).2

theorem hook_keeps_oneTable (table : Nat) (s t : Vmm) (op : HookOp)
    (inv : OneTable table s ∧ s.heapCur < 2 ^ 32) (ok : StaysInFirstSlot s op)
    (stepped : hookStep s op = some t) : OneTable table t ∧ t.heapCur < 2 ^ 32 := by
  obtain ⟨one, word⟩ := inv
  cases op with
  | alloc pages =>
    obtain ⟨⟨t', r⟩, call, rfl⟩ := Option.map_eq_some_iff.mp stepped
    rw [liballocAlloc_eq s pages word] at call
    split at call
    · obtain ⟨rfl, _⟩ := Prod.mk.inj (Option.some.inj call)
      exact ⟨one.congr rfl rfl, word⟩
    · split at call
      · obtain ⟨rfl, _⟩ := Prod.mk.inj (Option.some.inj call)
        obtain ⟨grown, _⟩ := first_slot_grows table _ s one ((inFirstSlot_iff s pages).mp ok)
        exact ⟨grown.congr rfl rfl, wrap_lt _⟩
      · cases call
  | free ptr pages =>
    obtain ⟨⟨t', r⟩, call, rfl⟩ := Option.map_eq_some_iff.mp stepped
    rw [liballocFree_eq s ptr pages ok] at call
    split at call
    · obtain ⟨rfl, _⟩ := Prod.mk.inj (Option.some.inj call)
      obtain ⟨start, _, cur, _⟩ := foldl_heap Vmm.freePage freePage_heap
        (regionPages ptr (wrap (ptr + regionSize pages))) s
      have dir := foldl_keeps Vmm.freePage (fun u => u.dir = s.dir)
        (regionPages ptr (wrap (ptr + regionSize pages)))
        (fun u va _ hu => (freePage_tables u va).trans hu) s rfl
      exact ⟨one.congr dir start, cur.symm ▸ word⟩
    · cases call

/-- After a run in the first 4 MiB, the next successful call leaves the heap's
contents alone exactly when its region does not leave the first 4 MiB either. -/
theorem growth_quiet_iff_first_slot (s t u : Vmm) (ops : List HookOp) (pages : Int) (r : Nat)
    (events : List Event) (room : BootRoom s)
    (stays : Permitted hookStep StaysInFirstSlot s.pagingInit ops)
    (ended : run hookStep s.pagingInit ops = some t)
    (call : t.liballocAlloc pages = some (u, r)) (success : r ≠ 0)
    (grown : u.trace = t.trace ++ events) : GrowsQuietly t events ↔ InFirstSlot t pages := by
  have initial : OneTable s.bootTable s.pagingInit ∧ s.pagingInit.heapCur < 2 ^ 32 := by
    refine ⟨pagingInit_oneTable s room, ?_⟩
    rw [(pagingInit_heap s room).2.1, ← (pagingInit_heap s room).1]
    exact (pagingInit_oneTable s room).word
  obtain ⟨one, word⟩ := always_invariant hookStep StaysInFirstSlot
    (fun v => OneTable s.bootTable v ∧ v.heapCur < 2 ^ 32)
    (fun v op v' inv ok st => hook_keeps_oneTable _ v v' op inv ok st)
    s.pagingInit ops initial stays ops (List.prefix_refl ops) t ended
  obtain ⟨accepted, below⟩ := liballocAlloc_accepted t u pages r word call success
  by_cases first : InFirstSlot t pages
  · obtain ⟨u', fs, call', grown', _, _, _, _, _, _, quiet⟩ :=
      first_slot_call s.bootTable t pages one word accepted below first
    obtain ⟨rfl, _⟩ := Prod.mk.inj (Option.some.inj (call.symm.trans call'))
    have same : events = fs := List.append_cancel_left (grown.symm.trans grown')
    exact ⟨fun _ => first, fun _ => same ▸ quiet⟩
  · obtain ⟨u', fs, call', grown', _, loud⟩ :=
      crossing_call s.bootTable t pages one word accepted below first
    obtain ⟨rfl, _⟩ := Prod.mk.inj (Option.some.inj (call.symm.trans call'))
    have same : events = fs := List.append_cancel_left (grown.symm.trans grown')
    exact ⟨fun quiet => absurd (same ▸ quiet) loud, fun slot => absurd slot first⟩

/-- A kernel that ends at 3 MiB, before paging_init. -/
def bootAt3M : Vmm where
  pmm := ⟨0x300000, fun _ => 0#32, []⟩
  kernelDir := 0
  dir := ⟨fun _ => 0, fun _ => PageDirEntry.zero⟩
  entries := fun _ => Page.zero
  heapStart := 0
  heapEnd := 0
  heapCur := 0
  trace := []
  calls := []

theorem request_at {s : Vmm} {cur stop : Nat} (here : s.heapCur = cur) (limit : s.heapEnd = stop)
    (pages : Int) : (InFirstSlot s pages ↔ (cur / 4096 ≤ wrap (cur + regionSize pages) / 4096 →
      wrap (cur + regionSize pages) < 2 ^ 22)) ∧
    (s.refuses pages ↔ signed (wrap (regionSize pages + cur)) ≥ signed stop) := by
  subst here limit
  exact ⟨Iff.rfl, Iff.rfl⟩

theorem bootAt3M_ready : OneTable 0x302000 bootAt3M.pagingInit ∧
    bootAt3M.pagingInit.newTable = 0x304000 ∧ bootAt3M.pagingInit.heapStart = 0x303400 ∧
    bootAt3M.pagingInit.heapCur = 0x303400 ∧ bootAt3M.pagingInit.heapEnd = 0x703400 ∧
    bootAt3M.pagingInit.calls = [] := by
  obtain ⟨start, cur, stop, calls⟩ := pagingInit_heap bootAt3M (by decide)
  obtain ⟨placed, _⟩ := pagingInit_pmm bootAt3M (by decide)
  refine ⟨pagingInit_oneTable bootAt3M (by decide), ?_, start, cur, stop, calls⟩
  unfold Vmm.newTable Pmm.dumballoc
  rw [placed]
  decide

theorem bootAt3M_first_chunk : ∃ t, run hookStep bootAt3M.pagingInit [.alloc 16] = some t ∧
    Permitted hookStep StaysInFirstSlot bootAt3M.pagingInit [.alloc 16] ∧
    OneTable 0x302000 t ∧ t.newTable = 0x304000 ∧ t.heapStart = 0x303400 ∧ t.heapCur = 0x313400 ∧
    t.heapEnd = 0x703400 ∧ outstanding t.calls = [(0x303400, 16)] := by
  obtain ⟨one, fresh, start, cur, stop, calls⟩ := bootAt3M_ready
  obtain ⟨slot, limit⟩ := request_at cur stop 16
  have first : InFirstSlot bootAt3M.pagingInit 16 := slot.mpr (by decide)
  obtain ⟨t, events, call, _, one', same, start', stop', cur', calls', _⟩ :=
    first_slot_call 0x302000 bootAt3M.pagingInit 16 one (by rw [cur]; decide)
      (fun refused => absurd (limit.mp refused) (by decide)) (by rw [cur]; decide) first
  refine ⟨t, ?_, ⟨first, fun _ _ => trivial⟩, one', same.trans fresh, start'.trans start, ?_,
    stop'.trans stop, ?_⟩
  · rw [run_cons, hookStep, call]
    rfl
  · rw [cur', cur]
    decide
  · rw [calls', calls, cur]
    decide

/-- Another 240 pages cross 4 MiB; the memset for the new table then covers all
of the first chunk but its head. -/
theorem second_table_clears_first_chunk : ∃ t u r events,
    run hookStep bootAt3M.pagingInit [.alloc 16] = some t ∧
    t.liballocAlloc 240 = some (u, r) ∧ r = 0x313400 ∧ u.trace = t.trace ++ events ∧
    (0x303400, 16) ∈ outstanding t.calls ∧ bytes 0x303400 (regionSize 16) ⊆ t.heap ∧
    .cleared 0x304000 (1024 * sizeofPageTable) ∈ events ∧ ¬ GrowsQuietly t events := by
  obtain ⟨t, ended, _, one, fresh, start, cur, stop, chunks⟩ := bootAt3M_first_chunk
  obtain ⟨slot, limit⟩ := request_at cur stop 240
  obtain ⟨u, events, call, grown, ⟨_, cleared⟩, loud⟩ :=
    crossing_call 0x302000 t 240 one (by rw [cur]; decide)
      (fun refused => absurd (limit.mp refused) (by decide)) (by rw [cur]; decide)
      (fun first => absurd (slot.mp first) (by decide))
  rw [fresh] at cleared
  refine ⟨t, u, _, events, ended, call, cur, grown, ?_, ?_, cleared, loud⟩
  · rw [chunks]
    decide
  · rw [Vmm.heap, start, stop, bytes]
    exact Set.Ico_subset_Ico (by decide) (by decide)

/-- Sixteen more pages stay below 4 MiB and leave the first chunk alone. -/
theorem second_chunk_quiet : ∃ t u r events,
    run hookStep bootAt3M.pagingInit [.alloc 16] = some t ∧
    t.liballocAlloc 16 = some (u, r) ∧ r ≠ 0 ∧ u.trace = t.trace ++ events ∧
    GrowsQuietly t events := by
  obtain ⟨t, ended, stays, one, _, _, cur, stop, _⟩ := bootAt3M_first_chunk
  obtain ⟨slot, limit⟩ := request_at cur stop 16
  have first : InFirstSlot t 16 := slot.mpr (by decide)
  obtain ⟨u, events, call, grown, _⟩ :=
    first_slot_call 0x302000 t 16 one (by rw [cur]; decide)
      (fun refused => absurd (limit.mp refused) (by decide)) (by rw [cur]; decide) first
  have nonzero : t.heapCur ≠ 0 := by
    rw [cur]
    decide
  exact ⟨t, u, t.heapCur, events, ended, call, nonzero, grown,
    (growth_quiet_iff_first_slot bootAt3M t u [.alloc 16] 16 t.heapCur events (by decide) stays
      ended call nonzero grown).mpr first⟩

end RiseOS
