import RiseOS.Heap.Free
import RiseOS.Library.Runs

/-! Runs of malloc and free: what the callers hold never overlaps, and no tag
lies in it. -/
namespace RiseOS
open Words Runs Links Tiling

/-- The heap, and the pointers that are out with the sizes asked for. -/
structure Client where
  heap : Heap
  live : List (Nat × Nat)

/-- A call, or a byte that a caller writes. -/
inductive ClientOp where
  | malloc (size : Nat)
  | free (ptr : Nat)
  | write (a : Nat) (v : BitVec 8)

def Heap.write (s : Heap) (a : Nat) (v : BitVec 8) : Heap :=
  { s with mem := Function.update s.mem a v }

def clientStep (s : Client) : ClientOp → Option Client
  | .malloc size => (s.heap.malloc size).map fun r =>
      ⟨r.1, if r.2 = 0 then s.live else (r.2, size) :: s.live⟩
  | .free ptr => (s.heap.free ptr).map fun heap => ⟨heap, s.live.filter (fun b => b.1 ≠ ptr)⟩
  | .write a v => some ⟨s.heap.write a v, s.live⟩

/-- Sizes up to HEAP_SIZE, NULL or a live pointer to free, and writes inside blocks. -/
def ClientAllowed (s : Client) : ClientOp → Prop
  | .malloc size => size ≤ heapSize
  | .free ptr => ptr = 0 ∨ ptr ∈ s.live.map Prod.fst
  | .write a _ => ∃ b ∈ s.live, b.1 ≤ a ∧ a < b.1 + b.2

instance : ∀ s op, Decidable (ClientAllowed s op)
  | _, .malloc size => inferInstanceAs (Decidable (size ≤ heapSize))
  | s, .free ptr => inferInstanceAs (Decidable (ptr = 0 ∨ ptr ∈ s.live.map Prod.fst))
  | s, .write a _ => inferInstanceAs (Decidable (∃ b ∈ s.live, b.1 ≤ a ∧ a < b.1 + b.2))

/-- The heap before the first malloc, with its pages as paging_init sets them up. -/
structure Heap.Uninitialised (s : Heap) : Prop where
  initialized : s.initialized = 0
  lock : s.lock = 0
  calls : s.vmm.calls = []
  cur : s.vmm.heapCur = s.vmm.heapStart
  stop : s.vmm.heapEnd = s.vmm.heapStart + heapSize
  room : s.vmm.heapEnd + heapSize < 2 ^ 31

structure Heap.Booted (s : Heap) : Prop where
  initialized : s.initialized = 0
  lock : s.lock = 0
  calls : s.vmm.calls = []
  cur : s.vmm.heapCur = s.vmm.heapStart
  stop : s.vmm.heapEnd = s.vmm.heapStart + heapSize
  room : SignSafe s.vmm.heapEnd

theorem Heap.Uninitialised.booted {s : Heap} (h : s.Uninitialised) : s.Booted :=
  ⟨h.initialized, h.lock, h.calls, h.cur, h.stop, .inl h.room⟩

/-- Where a boundary_tag lies: before a live block, at the head of a list, and
wherever a link of a tag leads. -/
inductive IsTag (s : Client) : Nat → Prop
  | live {b : Nat × Nat} : b ∈ s.live → IsTag s (wsub b.1 sizeofTag)
  | head {i : Int} : 0 ≤ i ∧ i < maxExp → s.heap.freePages i ≠ 0 → IsTag s (s.heap.freePages i)
  | link {t : Nat} {g : TagField} : IsTag s t → g ∈ [.next, .prev, .splitLeft, .splitRight] →
      s.heap.get g t ≠ 0 → IsTag s (s.heap.get g t)

structure Owned (s : Client) : Prop where
  payloads : s.live.Pairwise (fun b c => b.1 + b.2 ≤ c.1 ∨ c.1 + c.2 ≤ b.1)
  headers : ∀ b ∈ s.live, ∀ t, IsTag s t → b.1 + b.2 ≤ t ∨ t + sizeofTag ≤ b.1
  chunks : ∀ b ∈ s.live, ∃ c ∈ outstanding s.heap.vmm.calls,
    c.1 + sizeofTag ≤ b.1 ∧ b.1 + b.2 ≤ c.1 + regionSize c.2

def InUse (s : Heap) (T F : Finset Nat) (b : Nat × Nat) : Prop :=
  ∃ t ∈ T, t ∉ F ∧ b.1 = 32 + t ∧ s.get .size t = b.2 ∧ b.2 + 32 ≤ s.get .realSize t

/-- ClientAllowed, with every size that the hook does not misjudge. -/
def Served (s : Client) : ClientOp → Prop
  | .malloc size => s.heap.entered.Serves size
  | .free ptr => ptr = 0 ∨ ptr ∈ s.live.map Prod.fst
  | .write a _ => ∃ b ∈ s.live, b.1 ≤ a ∧ a < b.1 + b.2

theorem ClientAllowed.served {s : Client} {op : ClientOp} (allowed : ClientAllowed s op) :
    Served s op := by
  cases op with
  | malloc size => exact .inl (honest_of_small _ allowed)
  | free ptr => exact allowed
  | write a v => exact allowed

structure HeapInv (s : Client) (T F : Finset Nat) : Prop where
  ready : Ready s.heap T F
  inUse : ∀ b ∈ s.live, InUse s.heap T F b
  distinct : (s.live.map Prod.fst).Nodup
  fresh : s.heap.initialized = 0 → s.live = []

theorem InUse.spare {s s' : Heap} {T F T' F' : Finset Nat} {hand hand' : Nat} {b : Nat × Nat}
    (h : InUse s T F b) (spares : Spares s T F hand s' T' F' hand') (other : b.1 ≠ 32 + hand) :
    InUse s' T' F' b ∧ b.1 ≠ 32 + hand' := by
  obtain ⟨t, mem, free, pointer, size, real⟩ := h
  obtain ⟨mem', free', apart, size', real'⟩ := spares t mem free (fun e => other (e ▸ pointer))
  exact ⟨⟨t, mem', free', pointer, size'.trans size, by rw [real']; exact real⟩, by omega⟩

theorem InUse.nonnull {s : Heap} {T F : Finset Nat} {b : Nat × Nat} (h : InUse s T F b) :
    b.1 ≠ 0 := by
  obtain ⟨t, _, _, pointer, _⟩ := h
  omega

theorem booted_inv {h : Heap} (start : h.Booted) : HeapInv ⟨h, []⟩ ∅ ∅ := by
  obtain ⟨mem, vmm, _⟩ := initialize_rest h
  have none : chunkSet h.initialize.vmm.calls = ∅ := by
    rw [vmm, start.calls]
    ext c
    simp [chunkSet, outstanding]
  have size := heapSize_eq
  have cur := start.cur
  have stop := start.stop
  have room := start.room
  have top := room.fits
  have lists : ∀ b ∈ validBuckets, h.initialize.freePages b = 0 := by
    intro b valid
    unfold Heap.initialize
    rw [if_pos start.initialized]
    exact if_pos valid
  have limits : Limits h.vmm := ⟨by omega, by omega, room⟩
  refine ⟨⟨start.lock, limits, ?_⟩, by simp, List.nodup_nil, fun _ => rfl⟩
  refine ⟨tiled_empty none, linked_empty lists, Finset.Subset.refl ∅, by simp, by simp, by simp,
    by simp, ?_, ?_⟩
  · intro c hc
    rw [none] at hc
    exact absurd hc (Set.notMem_empty c)
  · rw [vmm]
    omega

section Invariant

variable {s : Client} {T F : Finset Nat} (h : HeapInv s T F)
include h

theorem HeapInv.started {b : Nat × Nat} (live : b ∈ s.live) : s.heap.initialized ≠ 0 := by
  intro none
  rw [h.fresh none] at live
  exact absurd live List.not_mem_nil

theorem HeapInv.blocks (started : s.heap.initialized ≠ 0) : Blocks s.heap T F 0 := by
  have inv := h.ready.blocks
  rwa [initialize_done started] at inv

theorem HeapInv.malloc {size : Nat} (serves : s.heap.entered.Serves size) :
    ∃ s', clientStep s (.malloc size) = some s' ∧ ∃ T' F', HeapInv s' T' F' := by
  obtain ⟨heap, p, T', F', call, ready, started, outcome⟩ := h.ready.malloc serves
  have fresh : ∀ l : List (Nat × Nat), heap.initialized = 0 → l = [] := fun _ none =>
    absurd none started
  refine ⟨⟨heap, if p = 0 then s.live else (p, size) :: s.live⟩, ?_, T', F', ?_⟩
  · unfold clientStep
    dsimp only
    rw [call]
    rfl
  rcases outcome with ⟨null, spares⟩ | ⟨tag, memT, free, pointer, spares, sizeOf, realOf⟩
  · rw [if_pos null]
    have kept : ∀ b ∈ s.live, InUse heap T' F' b := by
      intro b live
      have use := h.inUse b live
      have null := (h.blocks (h.started live)).null
      obtain ⟨t, mem, _, here, _⟩ := use
      exact ((h.inUse b live).spare spares (fun e => null (by rwa [show t = 0 by omega] at mem))).1
    exact ⟨ready, kept, h.distinct, fresh _⟩
  · rw [if_neg (by omega)]
    have kept : ∀ b ∈ s.live, InUse heap T' F' b ∧ b.1 ≠ p := by
      intro b live
      have null := (h.blocks (h.started live)).null
      obtain ⟨t, mem, _, here, _⟩ := h.inUse b live
      rw [pointer]
      exact (h.inUse b live).spare spares (fun e => null (by rwa [show t = 0 by omega] at mem))
    refine ⟨ready, ?_, ?_, fresh _⟩
    · intro b live
      rcases List.mem_cons.mp live with rfl | old
      · exact ⟨tag, memT, free, pointer, sizeOf, realOf⟩
      · exact (kept b old).1
    · rw [List.map_cons, List.nodup_cons]
      refine ⟨?_, h.distinct⟩
      intro mem
      obtain ⟨b, live, same⟩ := List.mem_map.mp mem
      exact (kept b live).2 same

theorem HeapInv.free {ptr : Nat} (allowed : ptr = 0 ∨ ptr ∈ s.live.map Prod.fst) :
    ∃ s', clientStep s (.free ptr) = some s' ∧ ∃ T' F', HeapInv s' T' F' := by
  have filtered : ((s.live.filter (fun b => b.1 ≠ ptr)).map Prod.fst).Nodup :=
    h.distinct.sublist (List.filter_sublist.map Prod.fst)
  have some_free : ∀ heap T' F', s.heap.free ptr = some heap → Ready heap T' F' →
      (∀ b ∈ s.live, b.1 ≠ ptr → InUse heap T' F' b) →
      (heap.initialized = 0 → s.live = []) →
      ∃ s', clientStep s (.free ptr) = some s' ∧ ∃ T' F', HeapInv s' T' F' := by
    intro heap T' F' call ready kept fresh
    refine ⟨⟨heap, s.live.filter (fun b => b.1 ≠ ptr)⟩, ?_, T', F', ready, ?_, filtered, ?_⟩
    · unfold clientStep
      dsimp only
      rw [call]
      rfl
    · intro b live
      obtain ⟨old, other⟩ := List.mem_filter.mp live
      exact kept b old (by simpa using other)
    · intro none
      dsimp only
      rw [fresh none]
      rfl
  by_cases null : ptr = 0
  · refine some_free s.heap T F (if_pos null) h.ready (fun b live _ => h.inUse b live) h.fresh
  · obtain ⟨b, live, rfl⟩ := List.mem_map.mp (allowed.resolve_left null)
    have started := h.started live
    obtain ⟨tag, memT, free, pointer, _, _⟩ := h.inUse b live
    obtain ⟨heap, T', F', call, ready, started', spares, _⟩ := h.ready.free started memT free
    rw [pointer] at some_free ⊢
    refine some_free heap T' F' call ready ?_ (fun none => absurd none started')
    intro c old other
    exact ((h.inUse c old).spare spares other).1

theorem HeapInv.outside {b : Nat × Nat} (live : b ∈ s.live) {t : Nat} (ht : t ∈ T) :
    b.1 + b.2 ≤ t ∨ t + 32 ≤ b.1 := by
  have blocks := h.blocks (h.started live)
  obtain ⟨u, hu, _, pointer, _, real⟩ := h.inUse b live
  by_cases same : t = u
  · omega
  · have := blocks.tiled.apart t ht u hu same
    have := blocks.long ht
    omega

/-- No field of a tag lies in a live block. -/
theorem HeapInv.writes_get {b : Nat × Nat} (live : b ∈ s.live) {m : Memory}
    (outside : ∀ a, a < 2 ^ 32 → ¬ (b.1 ≤ a ∧ a < b.1 + b.2) → m a = s.heap.mem a) {t : Nat}
    (ht : t ∈ T) (g : TagField) : ({ s.heap with mem := m } : Heap).get g t = s.heap.get g t := by
  have blocks := h.blocks (h.started live)
  have far := h.outside live ht
  have fits := blocks.fits ht
  have long := blocks.long ht
  have offset := (offset_lt g).1
  refine load32_congr fun k hk => outside _ (wrap_lt _) ?_
  simp only [wrap]
  omega

theorem HeapInv.writes {b : Nat × Nat} (live : b ∈ s.live) {m : Memory}
    (outside : ∀ a, a < 2 ^ 32 → ¬ (b.1 ≤ a ∧ a < b.1 + b.2) → m a = s.heap.mem a) :
    HeapInv ⟨{ s.heap with mem := m }, s.live⟩ T F := by
  have started := h.started live
  have blocks := h.blocks started
  have same := fun t (ht : t ∈ T) => h.writes_get live outside ht
  refine ⟨⟨h.ready.lock, h.ready.limits, ?_⟩, ?_, h.distinct, h.fresh⟩
  · have write_started : ({ s.heap with mem := m } : Heap).initialized ≠ 0 := started
    rw [initialize_done write_started]
    exact blocks.congr (fun t ht g _ => same t ht g) (fun _ _ => rfl) rfl rfl
  · intro c old
    obtain ⟨t, ht, free, pointer, size, real⟩ := h.inUse c old
    exact ⟨t, ht, free, pointer, (same t ht .size).trans size, by rw [same t ht]; exact real⟩

theorem HeapInv.write {a : Nat} {v : BitVec 8} (allowed : ∃ b ∈ s.live, b.1 ≤ a ∧ a < b.1 + b.2) :
    HeapInv ⟨s.heap.write a v, s.live⟩ T F := by
  obtain ⟨b, live, inside⟩ := allowed
  refine h.writes live (m := Function.update s.heap.mem a v) fun x _ other => ?_
  exact Function.update_of_ne (fun e => other (by rw [e]; exact inside)) _ _

theorem HeapInv.step (op : ClientOp) (served : Served s op) :
    ∃ s', clientStep s op = some s' ∧ ∃ T' F', HeapInv s' T' F' := by
  cases op with
  | malloc size => exact h.malloc served
  | free ptr => exact h.free served
  | write a v => exact ⟨_, rfl, T, F, h.write served⟩

theorem HeapInv.tag_mem (started : s.heap.initialized ≠ 0) {t : Nat} (tag : IsTag s t) : t ∈ T := by
  have blocks := h.blocks started
  induction tag with
  | @live b live =>
    obtain ⟨u, hu, _, pointer, _⟩ := h.inUse b live
    have fits := blocks.fits hu
    have back : wsub b.1 sizeofTag = u := by
      simp only [wsub, wrap, sizeofTag]
      omega
    rwa [back]
  | head valid node => exact blocks.head_tag valid node
  | @link t g _ kind node mem =>
    simp only [List.mem_cons, List.not_mem_nil, or_false] at kind
    rcases kind with rfl | rfl | rfl | rfl
    · by_cases listed : t ∈ F
      · exact blocks.next_tag listed node
      · exact absurd (blocks.loose t mem listed).1 node
    · by_cases listed : t ∈ F
      · exact blocks.prev_tag listed node
      · exact absurd (blocks.loose t mem listed).2 node
    · exact (blocks.tiled.left_mem t mem node).1
    · exact blocks.right_tag mem node

theorem HeapInv.owned : Owned s := by
  refine ⟨?_, ?_, ?_⟩
  · have unequal : s.live.Pairwise (fun b c => b.1 ≠ c.1) := List.pairwise_map.mp h.distinct
    refine unequal.imp_of_mem ?_
    intro b c liveB liveC other
    have blocks := h.blocks (h.started liveB)
    obtain ⟨t, ht, _, pointerB, _, realB⟩ := h.inUse b liveB
    obtain ⟨u, hu, _, pointerC, _, realC⟩ := h.inUse c liveC
    have := blocks.tiled.apart t ht u hu (by omega)
    omega
  · intro b live t tag
    exact h.outside live (h.tag_mem (h.started live) tag)
  · intro b live
    have blocks := h.blocks (h.started live)
    obtain ⟨t, ht, _, pointer, _, real⟩ := h.inUse b live
    obtain ⟨c, ⟨pages, out, size⟩, low, high, _⟩ := blocks.tiled.inside t ht
    refine ⟨(c.1, pages), out, ?_, ?_⟩
    · dsimp only [sizeofTag]
      omega
    · dsimp only
      omega

end Invariant

/-- Exclusive ownership in every run of the heap: calls return, payloads are
apart from each other and from every tag, and lie in chunks that are still out. -/
theorem heap_ownership (h : Heap) (start : h.Uninitialised) (ops : List ClientOp)
    (permitted : Permitted clientStep ClientAllowed ⟨h, []⟩ ops) :
    (∃ s, run clientStep ⟨h, []⟩ ops = some s) ∧ Always clientStep Owned ⟨h, []⟩ ops := by
  have step : ∀ s op, (∃ T F, HeapInv s T F) → ClientAllowed s op →
      ∃ s', clientStep s op = some s' ∧ ∃ T F, HeapInv s' T F := by
    rintro s op ⟨T, F, inv⟩ allowed
    exact inv.step op allowed.served
  have initial : ∃ T F, HeapInv ⟨h, []⟩ T F := ⟨∅, ∅, booted_inv start.booted⟩
  obtain ⟨s, ran, _⟩ := run_invariant clientStep ClientAllowed (fun s => ∃ T F, HeapInv s T F) step
    ⟨h, []⟩ ops initial permitted
  refine ⟨⟨s, ran⟩, ?_⟩
  have always := always_invariant clientStep ClientAllowed (fun s => ∃ T F, HeapInv s T F) ?_
    ⟨h, []⟩ ops initial permitted
  · intro done before s' ran'
    obtain ⟨T, F, inv⟩ := always done before s' ran'
    exact inv.owned
  · intro s op s' inv allowed result
    obtain ⟨t, same, inv'⟩ := step s op inv allowed
    rw [result] at same
    exact Option.some.inj same ▸ inv'

/-- A heap from 0x303400 on whose first 4 MiB have a page table. -/
def heapAt3M : Heap where
  mem := fun _ => 0
  freePages := fun _ => 0
  completePages := fun _ => 0
  initialized := 0
  lock := 0
  vmm :=
    { pmm := ⟨0x303400, fun _ => 0#32, []⟩
      kernelDir := 0x300000
      dir := ⟨fun i => if i = 0 then 0x302000 else 0, fun _ => PageDirEntry.zero⟩
      entries := fun _ => Page.zero
      heapStart := 0x303400
      heapEnd := 0x703400
      heapCur := 0x303400
      trace := []
      calls := [] }

/-- Seven blocks that fill a chunk each, of which `count` are freed in order. -/
def wholeChunks (count : Nat) : List ClientOp :=
  List.replicate 7 (.malloc 65400) ++ (List.range count).map (fun i => .free (0x303420 + 0x10000 * i))

def shareSpace : List ClientOp :=
  [.malloc 100, .malloc 40000, .write 0x3034a4 7, .free 0x3034a4, .malloc 8, .free 0x303420, .free 0]

theorem heapAt3M_ownership : (∃ s, run clientStep ⟨heapAt3M, []⟩ shareSpace = some s) ∧
    Always clientStep Owned ⟨heapAt3M, []⟩ shareSpace :=
  heap_ownership heapAt3M ⟨rfl, rfl, rfl, rfl, by decide, by decide⟩ shareSpace (by decide +kernel)

end RiseOS
