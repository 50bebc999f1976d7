import Mathlib.Algebra.Order.BigOperators.Group.Finset
import Mathlib.Data.Set.Card
import Mathlib.Data.Int.Interval
import RiseOS.Heap.Tidy

/-! The heap as a whole, after any run of calls: which blocks there are, which of
them are free, and what is left when the callers have given everything back. -/
namespace RiseOS
open Words Runs Links Tiling

/-- The free blocks are in order, and what is not free is live. -/
structure TidyInv (s : Client) (T F : Finset Nat) : Prop where
  inv : HeapInv s T F
  tidy : Tidy s.heap.initialize T F
  held : ∀ t, t ∈ T \ F ↔ 32 + t ∈ s.live.map Prod.fst

theorem HeapInv.retake {s : Client} {T F T' F' : Finset Nat} (h : HeapInv s T F)
    (started : s.heap.initialized ≠ 0) (blocks : Blocks s.heap T' F' 0)
    (bases : ∀ c ∈ chunkSet s.heap.vmm.calls, c.1 ∈ T') : HeapInv s T' F' := by
  have old := h.blocks started
  have sub := blocks.tiled.unique old.tiled sizeofTag_pos bases
  refine ⟨⟨h.ready.lock, h.ready.limits, ?_⟩, ?_, h.distinct, h.fresh⟩
  · rw [initialize_done started]
    exact blocks
  · intro b live
    obtain ⟨t, mem, free, rest⟩ := h.inUse b live
    have node := old.tiled.known mem
    refine ⟨t, sub mem, fun here => free ?_, rest⟩
    exact (old.free_iff t mem node).mp ((blocks.free_iff t (sub mem) node).mpr here)

theorem booted_tidy {h : Heap} (start : h.Booted) : TidyInv ⟨h, []⟩ ∅ ∅ := by
  have inv := booted_inv start
  have counts : ∀ b ∈ validBuckets, h.initialize.completePages b = 0 := by
    intro b valid
    unfold Heap.initialize
    rw [if_pos start.initialized]
    exact if_pos valid
  refine ⟨inv, ⟨?_, by simp, by simp, ?_, ?_, ⟨fun _ => 0, by simp⟩⟩, by simp⟩
  · intro c hc
    obtain ⟨pages, out, _⟩ := hc
    rw [(initialize_rest h).2.1, start.calls] at out
    cases out
  · intro b valid
    rw [counts b valid]
    rfl
  · intro b valid
    rw [counts b valid]
    decide

section Steps

variable {s s' : Client} {T F : Finset Nat} (h : TidyInv s T F)
include h

theorem TidyInv.entered : Tidy s.heap.entered T F :=
  h.tidy.congr h.tidy.bases (fun _ _ => ⟨rfl, rfl, rfl, Iff.rfl⟩) (fun _ _ => rfl) fun _ _ => rfl

theorem TidyInv.started (started : s.heap.initialized ≠ 0) : Tidy s.heap T F := by
  have tidy := h.tidy
  rwa [initialize_done started] at tidy

theorem TidyInv.malloc {size : Nat} (serves : s.heap.entered.Serves size) (small : size < 2 ^ 32)
    (step : clientStep s (.malloc size) = some s') :
    ∃ T' F', TidyInv s' T' F' ∧ Frame T' s.heap s'.heap := by
  obtain ⟨t, result, T₀, F₀, inv⟩ := h.inv.malloc serves
  obtain rfl := Option.some.inj (step.symm.trans result)
  obtain ⟨⟨heap, p⟩, call, rfl⟩ := Option.map_eq_some_iff.mp step
  obtain ⟨heap', p', _, _, call', _, started, _⟩ := h.inv.ready.malloc serves
  obtain ⟨rfl, rfl⟩ := Prod.mk.inj (Option.some.inj (call.symm.trans call'))
  obtain ⟨blocks, limits, _, _⟩ := h.inv.ready.entered
  rw [malloc_entered h.inv.ready.lock] at call
  simp only [Option.bind_eq_some_iff, Option.map_eq_some_iff] at call
  obtain ⟨found, searched, ⟨m, tag⟩, obtained, result⟩ := call
  have start : ∀ {T'}, Frame T' s.heap s.heap.entered := .of_mem (initialize_rest s.heap).1
  have unlocked : ∀ {w : Heap} {T' F'}, Blocks w T' F' 0 → Tidy w T' F' →
      Blocks w.liballocUnlock T' F' 0 ∧ Tidy w.liballocUnlock T' F' := fun blocks tidy =>
    ⟨blocks.withLock 0, tidy.congr tidy.bases (fun t _ => ⟨rfl, rfl, rfl, Iff.rfl⟩)
      (fun _ _ => rfl) fun _ _ => rfl⟩
  rcases h.entered.malloc blocks limits serves small searched obtained with
    ⟨null, blocks', tidy', frame⟩ | ⟨node, T', F', blocks', tidy', held, frame⟩
  · rw [if_pos null] at result
    obtain ⟨rfl, rfl⟩ := Prod.mk.inj result
    obtain ⟨blocks', tidy'⟩ := unlocked blocks' tidy'
    refine ⟨T, F, ⟨inv.retake started blocks' tidy'.bases, ?_, ?_⟩, start.trans frame⟩
    · dsimp only
      rw [initialize_done started]
      exact tidy'
    · dsimp only
      rw [if_pos rfl]
      exact h.held
  · rw [if_neg node] at result
    dsimp only at result
    generalize m.useTag tag size = w at blocks' tidy' frame result
    obtain ⟨rfl, pointer⟩ := Prod.mk.inj result
    have mem : tag ∈ T' := (Finset.mem_sdiff.mp (held ▸ Finset.mem_insert_self tag _)).1
    have fits := blocks'.fits mem
    have at_tag : p = 32 + tag := pointer.symm.trans (wrap_eq (n := 32 + tag) (by omega))
    obtain ⟨blocks', tidy'⟩ := unlocked blocks' tidy'
    refine ⟨T', F', ⟨inv.retake started blocks' tidy'.bases, ?_, ?_⟩, start.trans frame⟩
    · dsimp only
      rw [initialize_done started]
      exact tidy'
    · intro t
      dsimp only
      rw [if_neg (by omega), List.map_cons, List.mem_cons, held, Finset.mem_insert, h.held t, at_tag]
      simp only [Nat.add_left_cancel_iff]

theorem TidyInv.free {ptr : Nat} (allowed : ptr = 0 ∨ ptr ∈ s.live.map Prod.fst)
    (step : clientStep s (.free ptr) = some s') :
    ∃ T' F', TidyInv s' T' F' ∧ Frame T s.heap s'.heap := by
  obtain ⟨t, result, T₀, F₀, inv⟩ := h.inv.free allowed
  obtain rfl := Option.some.inj (step.symm.trans result)
  obtain ⟨heap, call, rfl⟩ := Option.map_eq_some_iff.mp step
  have left : ∀ t, 32 + t ∈ (s.live.filter (fun b => b.1 ≠ ptr)).map Prod.fst ↔
      32 + t ≠ ptr ∧ 32 + t ∈ s.live.map Prod.fst := by
    intro t
    simp only [List.mem_map, List.mem_filter, decide_eq_true_eq]
    constructor
    · rintro ⟨b, ⟨live, other⟩, same⟩
      exact ⟨same ▸ other, b, live, same⟩
    · rintro ⟨other, b, live, same⟩
      exact ⟨b, ⟨live, same ▸ other⟩, same⟩
  by_cases null : ptr = 0
  · rw [Heap.free, if_pos null] at call
    obtain rfl := Option.some.inj call
    refine ⟨T, F, ⟨⟨h.inv.ready, ?_, inv.distinct, inv.fresh⟩, h.tidy, fun t => ?_⟩, .refl T _⟩
    · exact fun b live => h.inv.inUse b (List.mem_of_mem_filter live)
    · rw [h.held t, left t]
      exact ⟨fun live => ⟨by omega, live⟩, fun live => live.2⟩
  · obtain ⟨b, live, rfl⟩ := List.mem_map.mp (allowed.resolve_left null)
    have started := h.inv.started live
    obtain ⟨tag, mem, free, pointer, _⟩ := h.inv.inUse b live
    obtain ⟨heap', _, _, call', _, startedNow, _⟩ := h.inv.ready.free started mem free
    rw [pointer] at call left ⊢
    obtain rfl := Option.some.inj (call.symm.trans call')
    obtain ⟨T', F', blocks', tidy', held, frame⟩ := (h.started started).free (h.inv.blocks started)
      h.inv.ready.limits h.inv.ready.lock mem free call
    refine ⟨T', F', ⟨?_, ?_, fun t => ?_⟩, frame⟩
    · rw [pointer] at inv
      exact inv.retake startedNow blocks' tidy'.bases
    · dsimp only
      rw [initialize_done startedNow]
      exact tidy'
    · rw [held, Finset.mem_erase, h.held t, left t]
      refine and_congr_left fun _ => ?_
      omega

theorem TidyInv.write {a : Nat} {v : BitVec 8}
    (allowed : ∃ b ∈ s.live, b.1 ≤ a ∧ a < b.1 + b.2) :
    TidyInv ⟨s.heap.write a v, s.live⟩ T F := by
  obtain ⟨b, live, inside⟩ := allowed
  have started := h.inv.started live
  have outside : ∀ x, x < 2 ^ 32 → ¬ (b.1 ≤ x ∧ x < b.1 + b.2) →
      Function.update s.heap.mem a v x = s.heap.mem x := fun x _ other =>
    Function.update_of_ne (fun e => other (by rw [e]; exact inside)) _ _
  have same := fun t (free : t ∈ F) =>
    h.inv.writes_get live outside ((h.inv.blocks started).free_sub free)
  have startedNow : (s.heap.write a v).initialized ≠ 0 := started
  refine ⟨h.inv.write ⟨b, live, inside⟩, ?_, h.held⟩
  dsimp only
  rw [initialize_done startedNow]
  refine (h.started started).congr (h.started started).bases (fun t free => ?_) (fun _ _ => rfl)
    fun t free => same t free .prev
  have kept := same t free
  exact .of_links (kept .splitRight) (kept .realSize) (kept .index)
    (by rw [show (s.heap.write a v).get .splitLeft t = _ from kept .splitLeft])

theorem TidyInv.step {op : ClientOp} (allowed : ClientAllowed s op)
    (step : clientStep s op = some s') : ∃ T' F', TidyInv s' T' F' := by
  cases op with
  | malloc size =>
    have small : size ≤ heapSize := allowed
    have window := heapSize_eq
    obtain ⟨T', F', inv, _⟩ := h.malloc allowed.served (by omega) step
    exact ⟨T', F', inv⟩
  | free ptr =>
    obtain ⟨T', F', inv, _⟩ := h.free allowed step
    exact ⟨T', F', inv⟩
  | write a v =>
    obtain rfl := Option.some.inj step
    exact ⟨T, F, h.write allowed⟩

theorem TidyInv.word {b : Nat × Nat} (live : b ∈ s.live) : b.1 + b.2 < 2 ^ 32 := by
  obtain ⟨t, mem, _, pointer, _, real⟩ := h.inv.inUse b live
  have fits := (h.inv.blocks (h.inv.started live)).fits mem
  omega

omit h in
theorem TidyInv.framed {s : Client} {T F : Finset Nat} (h : TidyInv s T F) {b : Nat × Nat}
    (live : b ∈ s.live) {u w : Heap} (frame : Frame T u w) {a : Nat}
    (inside : b.1 ≤ a ∧ a < b.1 + b.2) : w.mem a = u.mem a := by
  have word := h.word live
  refine frame a (by omega) fun t mem => ?_
  have far := h.inv.outside live mem
  unfold sizeofTag
  omega

/-- The bytes of a live block change only when a caller writes them. -/
theorem TidyInv.keeps {op : ClientOp} (allowed : ClientAllowed s op)
    (step : clientStep s op = some s') {b : Nat × Nat} (live : b ∈ s.live) (kept : op ≠ .free b.1)
    {a : Nat} (inside : b.1 ≤ a ∧ a < b.1 + b.2) (unwritten : ∀ v, op ≠ .write a v) :
    b ∈ s'.live ∧ s'.heap.mem a = s.heap.mem a := by
  cases op with
  | malloc size =>
    have small : size ≤ heapSize := allowed
    have window := heapSize_eq
    obtain ⟨T', F', inv, frame⟩ := h.malloc allowed.served (by omega) step
    have still : b ∈ s'.live := by
      obtain ⟨r, _, rfl⟩ := Option.map_eq_some_iff.mp step
      dsimp only
      split
      · exact live
      · exact List.mem_cons_of_mem _ live
    exact ⟨still, inv.framed still frame inside⟩
  | free ptr =>
    obtain ⟨T', F', inv, frame⟩ := h.free allowed step
    have other : b.1 ≠ ptr := fun e => kept (by rw [e])
    have still : b ∈ s'.live := by
      obtain ⟨r, _, rfl⟩ := Option.map_eq_some_iff.mp step
      exact List.mem_filter.mpr ⟨live, by simpa using other⟩
    exact ⟨still, h.framed live frame inside⟩
  | write x v =>
    obtain rfl := Option.some.inj step
    exact ⟨live, Function.update_of_ne (fun e => unwritten v (by rw [e])) _ _⟩

theorem TidyInv.keeps_all {ops : List ClientOp} (permitted : Permitted clientStep ClientAllowed s ops)
    (ran : run clientStep s ops = some s') {b : Nat × Nat} (live : b ∈ s.live)
    (kept : .free b.1 ∉ ops) {a : Nat} (inside : b.1 ≤ a ∧ a < b.1 + b.2)
    (unwritten : ∀ v, .write a v ∉ ops) : b ∈ s'.live ∧ s'.heap.mem a = s.heap.mem a := by
  induction ops generalizing s T F with
  | nil =>
    obtain rfl := Option.some.inj ran
    exact ⟨live, rfl⟩
  | cons op ops ih =>
    obtain ⟨allowed, later⟩ := permitted
    obtain ⟨m, step, rest⟩ := Option.bind_eq_some_iff.mp ran
    rw [List.mem_cons, not_or] at kept
    obtain ⟨live', same⟩ := h.keeps allowed step live (fun e => kept.1 e.symm) inside
      fun v e => unwritten v (e ▸ List.mem_cons_self)
    obtain ⟨T', F', inv⟩ := h.step allowed step
    obtain ⟨live'', same'⟩ := ih inv (later m step) rest live' kept.2
      fun v mem => unwritten v (List.mem_cons_of_mem op mem)
    exact ⟨live'', same'.trans same⟩

end Steps

/-- Each free block is in the list of its size, its neighbours are in use, and
the chunks that are free as a whole are counted. -/
structure InOrder (s : Heap) : Prop where
  melted : ∀ t, Listed s t → ¬Listed s (s.get .splitLeft t) ∧ ¬Listed s (s.get .splitRight t)
  sorted : ∀ i, 0 ≤ i ∧ i < maxExp → ∀ t, InList s (s.freePages i) t →
    i = bucket (wsub (s.get .realSize t) sizeofTag)
  counted : ∀ i, 0 ≤ i ∧ i < maxExp →
    s.completePages i = {t | InList s (s.freePages i) t ∧ s.complete t}.ncard
  few : ∀ i, 0 ≤ i ∧ i < maxExp → s.completePages i ≤ maxComplete

/-- Each byte of a chunk that is out lies in one block, and each block is in a
list or live, and not both. -/
structure NothingLost (s : Client) : Prop where
  covered : ∀ c ∈ outstanding s.heap.vmm.calls, ∀ a, c.1 ≤ a → a < c.1 + regionSize c.2 →
    ∃! t, IsTag s t ∧ t ≤ a ∧ a < t + s.heap.get .realSize t
  owned : ∀ t, IsTag s t → (Listed s.heap t ↔ 32 + t ∉ s.live.map Prod.fst)

/-- Each chunk that is out is one free block, and at most five of each size class
of 256 bytes and up are kept. -/
structure Drained (s : Heap) : Prop where
  whole : ∀ c ∈ outstanding s.vmm.calls, Listed s c.1 ∧ s.complete c.1 ∧
    s.get .realSize c.1 = regionSize c.2
  few : ((outstanding s.vmm.calls).map Prod.fst).toFinset.card ≤ 120

section Lists

variable {s : Heap} {T F : Finset Nat} (h : Blocks s T F 0) (tidy : Tidy s T F)

theorem inList_iterate (s : Heap) (n : Nat) {tag : Nat}
    (more : ∀ i, i ≤ n → (s.get .next)^[i] tag ≠ 0) : InList s tag ((s.get .next)^[n] tag) := by
  induction n generalizing tag with
  | zero => exact .here (more 0 (Nat.le_refl 0))
  | succ n ih => exact .next (more 0 (Nat.zero_le _)) (ih fun i hi => more (i + 1) (by omega))

theorem InList.node {tag t : Nat} (walk : InList s tag t) : tag ≠ 0 := by
  cases walk with
  | here node => exact node
  | next node _ => exact node

theorem Listed.walk {t u : Nat} (walk : InList s t u) (start : Listed s t) : Listed s u := by
  induction walk with
  | here _ => exact start
  | next _ walk ih => exact ih (.next start walk.node)

include h tidy

theorem Tidy.in_list_iff {b : Int} (valid : b ∈ validBuckets) {t : Nat} :
    InList s (s.freePages b) t ↔ t ∈ F ∧ s.index t = b := by
  constructor
  · exact h.in_list valid
  · rintro ⟨mem, rfl⟩
    obtain ⟨n, here, more⟩ := h.linked.reached tidy.acyclic mem
    have walk := inList_iterate s n more
    rwa [here] at walk

theorem Tidy.listed_iff {t : Nat} : Listed s t ↔ t ∈ F := by
  refine ⟨h.listed_free, fun mem => ?_⟩
  have walk := (tidy.in_list_iff h (h.valid mem)).mpr ⟨mem, rfl⟩
  exact Listed.walk walk (.head (h.valid mem) walk.node)

theorem Tidy.inOrder : InOrder s := by
  refine ⟨?_, ?_, ?_, tidy.few⟩
  · intro t listed
    have mem := (tidy.listed_iff h).mp listed
    rw [tidy.listed_iff h, tidy.listed_iff h]
    refine ⟨fun left => ?_, tidy.melted t mem⟩
    have forth := (h.tiled.left_mem t (h.free_sub mem) (h.tiled.known (h.free_sub left))).2
    exact tidy.melted _ left (forth.symm ▸ mem)
  · intro i valid t listed
    obtain ⟨mem, here⟩ := (tidy.in_list_iff h valid).mp listed
    rw [← here]
    exact tidy.sorted t mem
  · intro i valid
    rw [tidy.counted i valid, ← Set.ncard_coe_finset]
    congr 2
    ext t
    simp only [Heap.wholeIn, Finset.coe_filter, Set.mem_ofPred_eq, tidy.in_list_iff h valid, and_assoc]

/-- When all blocks are free, no block has a neighbour. -/
theorem Tidy.all_free (drained : T = F) {t : Nat} (mem : t ∈ F) : s.complete t := by
  refine ⟨?_, ?_⟩
  · by_contra more
    obtain ⟨left, forth⟩ := h.tiled.left_mem t (h.free_sub mem) more
    rw [drained] at left
    exact tidy.melted _ left (forth.symm ▸ mem)
  · by_contra more
    have right := (h.tiled.right_mem t (h.free_sub mem) more).1
    rw [drained] at right
    exact tidy.melted t mem right

theorem Tidy.few_free (drained : T = F) : F.card ≤ 120 := by
  have range : ∀ t ∈ F, s.index t ∈ Finset.Icc (8 : Int) 31 := by
    intro t mem
    have small := getexp_lt (wsub (s.get .realSize t) sizeofTag)
    rw [tidy.sorted t mem, Finset.mem_Icc]
    unfold bucket minExp
    unfold maxExp at small
    split <;> omega
  have each : ∀ b ∈ Finset.Icc (8 : Int) 31, (F.filter fun t => s.index t = b).card ≤ 5 := by
    intro b mem
    rw [Finset.mem_Icc] at mem
    have valid : b ∈ validBuckets := ⟨by omega, by unfold maxExp; omega⟩
    have whole : s.wholeIn F b = F.filter fun t => s.index t = b := by
      refine Finset.filter_congr fun t free => ?_
      simp only [tidy.all_free h drained free, and_true]
    have few := tidy.few b valid
    rw [tidy.counted b valid, whole] at few
    unfold maxComplete at few
    omega
  rw [Finset.card_eq_sum_card_fiberwise range]
  exact (Finset.sum_le_card_nsmul _ _ 5 each).trans (by decide)

end Lists

theorem TidyInv.initialize {s : Client} {T F : Finset Nat} (h : TidyInv s T F) :
    TidyInv { s with heap := s.heap.initialize } T F := by
  obtain ⟨mem, vmm, started⟩ := initialize_rest s.heap
  have again := initialize_done started
  have get : ∀ g t, s.heap.initialize.get g t = s.heap.get g t := by
    intro g t
    unfold Heap.get
    rw [mem]
  have unlocked : s.heap.initialize.lock = 0 := by
    rw [← h.inv.ready.lock]
    unfold Heap.initialize
    split <;> rfl
  have limits : Limits s.heap.initialize.vmm := by
    rw [vmm]
    exact h.inv.ready.limits
  refine ⟨⟨⟨unlocked, limits, ?_⟩, ?_, h.inv.distinct, fun none => absurd none started⟩, ?_, h.held⟩
  · dsimp only
    rw [again]
    exact h.inv.ready.blocks
  · intro b live
    obtain ⟨t, memT, free, pointer, size, real⟩ := h.inv.inUse b live
    exact ⟨t, memT, free, pointer, (get _ _).trans size, by rw [get]; exact real⟩
  · dsimp only
    rw [again]
    exact h.tidy

section Views

variable {s : Client} {T F : Finset Nat} (h : TidyInv s T F) (started : s.heap.initialized ≠ 0)
include h started

theorem TidyInv.isTag_iff {t : Nat} : IsTag s t ↔ t ∈ T := by
  have blocks := h.inv.blocks started
  refine ⟨h.inv.tag_mem started, fun mem => ?_⟩
  by_cases free : t ∈ F
  · have listed := ((h.started started).listed_iff blocks).mpr free
    clear mem free
    induction listed with
    | head valid node => exact .head valid node
    | next _ more ih => exact .link ih (by simp) more
  · have live := (h.held t).mp (Finset.mem_sdiff.mpr ⟨mem, free⟩)
    obtain ⟨b, live, pointer⟩ := List.mem_map.mp live
    have fits := blocks.fits mem
    have back : wsub b.1 sizeofTag = t := by
      rw [pointer]
      simp only [wsub, wrap, sizeofTag]
      omega
    exact back ▸ .live live

theorem TidyInv.nothingLost : NothingLost s := by
  have blocks := h.inv.blocks started
  refine ⟨?_, ?_⟩
  · rintro ⟨base, pages⟩ out a low below
    have chunk : (base, regionSize pages) ∈ chunkSet s.heap.vmm.calls := ⟨pages, out, rfl⟩
    simp only [h.isTag_iff started]
    exact blocks.tiled.partition sizeofTag_pos chunk ((h.started started).bases _ chunk) low below
  · intro t tag
    have mem := (h.isTag_iff started).mp tag
    rw [(h.started started).listed_iff blocks, ← h.held t, Finset.mem_sdiff, not_and, not_not]
    exact ⟨fun free _ => free, fun free => free mem⟩

theorem TidyInv.drained (none : s.live = []) : Drained s.heap := by
  have blocks := h.inv.blocks started
  have tidy := h.started started
  have all : T = F := by
    refine Finset.Subset.antisymm (fun t mem => ?_) blocks.free_sub
    by_contra free
    have live := (h.held t).mp (Finset.mem_sdiff.mpr ⟨mem, free⟩)
    rw [none] at live
    cases live
  refine ⟨?_, ?_⟩
  · rintro ⟨base, pages⟩ out
    have chunk : (base, regionSize pages) ∈ chunkSet s.heap.vmm.calls := ⟨pages, out, rfl⟩
    have mem := tidy.bases _ chunk
    have free := mem
    rw [all] at free
    have whole := tidy.all_free blocks all free
    refine ⟨(tidy.listed_iff blocks).mpr free, whole, ?_⟩
    obtain ⟨_, count, least, _, size⟩ := blocks.below _ chunk
    have long := blocks.long mem
    have own := blocks.tiled.whole mem whole.1 whole.2
    dsimp only at size long
    have same := blocks.tiled.same_chunk own chunk (a := base) ⟨Nat.le_refl _, by dsimp only; omega⟩
      ⟨Nat.le_refl _, by dsimp only; omega⟩
    exact congrArg Prod.snd same
  · refine (Finset.card_le_card fun base mem => ?_).trans (tidy.few_free blocks all)
    rw [List.mem_toFinset, List.mem_map] at mem
    obtain ⟨⟨b, pages⟩, out, rfl⟩ := mem
    rw [← all]
    exact tidy.bases (b, regionSize pages) ⟨pages, out, rfl⟩

end Views

section Runs

variable (bitmapAt : Nat) (h : Heap) (start : h.BootedPaged) (ops : List ClientOp)
  (permitted : Permitted pagedStep (QuietAllowed bitmapAt) ⟨h, []⟩ ops)
include start permitted

theorem tidy_always : Always pagedStep
    (fun s => ∃ T F, TidyInv { s with heap := s.heap.initialize } T F) ⟨h, []⟩ ops := by
  have spared := (paged_permitted start.below).mp permitted
  have initial : ∃ T F, TidyInv ⟨h, []⟩ T F := ⟨∅, ∅, booted_tidy start.toBooted⟩
  have always := always_invariant clientStep _ (fun s => ∃ T F, TidyInv s T F) ?_
    ⟨h, []⟩ ops initial spared
  · refine (paged_always start.below spared).mpr fun done before s reached => ?_
    obtain ⟨T, F, inv⟩ := always done before s reached
    exact ⟨T, F, inv.initialize⟩
  · rintro s op s' ⟨T, F, inv⟩ allowed step
    exact inv.step allowed.1.1 step

/-- In every run that makes no page table and whose clears spare the heap, no two free
blocks are neighbours, each is in the list of its size, and the counts of whole chunks are
right and at most five. -/
theorem heap_in_order : Always pagedStep (fun s => InOrder s.heap.initialize) ⟨h, []⟩ ops := by
  intro done before s reached
  obtain ⟨T, F, inv⟩ := tidy_always bitmapAt h start ops permitted done before s reached
  have started := (initialize_rest s.heap).2.2
  exact (inv.started started).inOrder (inv.inv.blocks started)

/-- No byte of a chunk is lost or in two blocks, and no block is. -/
theorem heap_loses_nothing :
    Always pagedStep (fun s => NothingLost { s with heap := s.heap.initialize }) ⟨h, []⟩ ops := by
  intro done before s reached
  obtain ⟨T, F, inv⟩ := tidy_always bitmapAt h start ops permitted done before s reached
  exact inv.nothingLost (initialize_rest s.heap).2.2

/-- Once the callers have given everything back, all blocks have melted into
whole chunks, and at most 120 of these are kept. -/
theorem drained_heap : Always pagedStep
    (fun s => s.live = [] → Drained s.heap.initialize) ⟨h, []⟩ ops := by
  intro done before s reached none
  obtain ⟨T, F, inv⟩ := tidy_always bitmapAt h start ops permitted done before s reached
  exact inv.drained (initialize_rest s.heap).2.2 none

end Runs

/-- A byte of a block is as its caller left it, whatever calls of malloc and free come in
between that make no page table and whose clears spare the heap, until the block is freed. -/
theorem data_kept (bitmapAt : Nat) (h : Heap) (start : h.BootedPaged) (before after : List ClientOp)
    (permitted : Permitted pagedStep (QuietAllowed bitmapAt) ⟨h, []⟩ (before ++ after))
    (s s' : Client) (reached : run pagedStep ⟨h, []⟩ before = some s) (ran : run pagedStep s after = some s')
    (b : Nat × Nat) (live : b ∈ s.live) (kept : .free b.1 ∉ after) (a : Nat)
    (inside : b.1 ≤ a ∧ a < b.1 + b.2) (unwritten : ∀ v, .write a v ∉ after) :
    b ∈ s'.live ∧ s'.heap.mem a = s.heap.mem a := by
  have spared := (paged_permitted start.below).mp permitted
  obtain ⟨first, rest⟩ := (permitted_append clientStep _ _ before after).mp spared
  rw [paged_run start.below first] at reached
  have second := rest s reached
  have below := paged_below start.below first before List.prefix_rfl s reached
  rw [paged_run below second] at ran
  have always := always_invariant clientStep _ (fun s => ∃ T F, TidyInv s T F)
    (fun s op s' => fun ⟨T, F, inv⟩ allowed step => inv.step allowed.1.1 step)
    ⟨h, []⟩ before ⟨∅, ∅, booted_tidy start.toBooted⟩ first
  obtain ⟨T, F, inv⟩ := always before List.prefix_rfl s reached
  exact inv.keeps_all (second.mono fun _ _ allowed => allowed.1.1) ran live kept inside unwritten

theorem shared_data_kept : ∃ s s', run pagedStep ⟨heapAt3M, []⟩
      [.malloc 100, .malloc 40000, .write 0x303424 7] = some s ∧
    run pagedStep s [.free 0x3034a4, .malloc 8] = some s' ∧ (0x303420, 100) ∈ s'.live ∧
    s'.heap.mem 0x303424 = s.heap.mem 0x303424 := by
  have runs : (run pagedStep ⟨heapAt3M, []⟩ [.malloc 100, .malloc 40000, .write 0x303424 7]).any
      (fun s => (0x303420, 100) ∈ s.live ∧
        (run pagedStep s [.free 0x3034a4, .malloc 8]).isSome) = true := by decide +kernel
  obtain ⟨s, reached, found⟩ := Option.any_eq_true _ _ |>.mp runs
  obtain ⟨live, returns⟩ := of_decide_eq_true found
  obtain ⟨s', ran⟩ := Option.isSome_iff_exists.mp returns
  exact ⟨s, s', reached, ran, data_kept bitmapAt3M heapAt3M heapAt3M_paged
    [.malloc 100, .malloc 40000, .write 0x303424 7] [.free 0x3034a4, .malloc 8] (by decide +kernel)
    s s' reached ran (0x303420, 100) live (by simp) 0x303424 (by decide) (by simp)⟩

theorem shared_in_order : Always pagedStep (fun s => InOrder s.heap.initialize)
    ⟨heapAt3M, []⟩ shareSpace :=
  heap_in_order bitmapAt3M heapAt3M heapAt3M_paged shareSpace (by decide +kernel)

theorem shared_loses_nothing : Always pagedStep
    (fun s => NothingLost { s with heap := s.heap.initialize }) ⟨heapAt3M, []⟩ shareSpace :=
  heap_loses_nothing bitmapAt3M heapAt3M heapAt3M_paged shareSpace (by decide +kernel)

/-- Seven chunks come back, and two of them go back to the page hooks. -/
theorem whole_chunks_drained : Always pagedStep
    (fun s => s.live = [] → Drained s.heap.initialize) ⟨heapAt3M, []⟩ (wholeChunks 7) :=
  drained_heap bitmapAt3M heapAt3M heapAt3M_paged (wholeChunks 7)
    ((paged_permitted heapAt3M_paged.below).mpr (by decide +kernel))

end RiseOS
