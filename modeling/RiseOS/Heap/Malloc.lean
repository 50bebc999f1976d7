import RiseOS.Heap.Blocks

/-! malloc: every path keeps the invariant and leaves the blocks in use alone. -/
namespace RiseOS
open Words Links Tiling

/-- The tags in use, but for the one in hand, stay in use with their sizes. -/
def Spares (s : Heap) (T F : Finset Nat) (hand : Nat) (s' : Heap) (T' F' : Finset Nat)
    (hand' : Nat) : Prop :=
  ∀ t ∈ T, t ∉ F → t ≠ hand → t ∈ T' ∧ t ∉ F' ∧ t ≠ hand' ∧
    s'.get .size t = s.get .size t ∧ s'.get .realSize t = s.get .realSize t

theorem Spares.refl (s : Heap) (T F : Finset Nat) (hand : Nat) : Spares s T F hand s T F hand :=
  fun _ ht free other => ⟨ht, free, other, rfl, rfl⟩

theorem Spares.trans {s s' s'' : Heap} {T T' T'' F F' F'' : Finset Nat} {hand hand' hand'' : Nat}
    (h : Spares s T F hand s' T' F' hand') (k : Spares s' T' F' hand' s'' T'' F'' hand'') :
    Spares s T F hand s'' T'' F'' hand'' := by
  intro t ht free other
  obtain ⟨ht', free', other', size, real⟩ := h t ht free other
  obtain ⟨ht'', free'', other'', size', real'⟩ := k t ht' free' other'
  exact ⟨ht'', free'', other'', size'.trans size, real'.trans real⟩

theorem removeTag_spares {s : Heap} {T F : Finset Nat} {hand x : Nat} (h : Blocks s T F hand)
    (hx : x ∈ F) {out : Nat} : Spares s T F out (s.removeTag x) T (F.erase x) x := by
  have get := fun u hu => removeTag_get h.apart h.null s (h.free_sub hx) hu (h.prev_tag hx)
    (h.next_tag hx) (u := u)
  intro t ht free _
  exact ⟨ht, fun mem => free (Finset.mem_of_mem_erase mem), fun e => free (e ▸ hx),
    get t ht .size, get t ht .realSize⟩

section NewChunk

variable {s : Heap} {T F : Finset Nat} (h : Blocks s T F 0)
include h

theorem Blocks.newChunk {v : Vmm} {tag size pages : Nat} (cur : tag = s.vmm.heapCur)
    (node : tag ≠ 0) (next : v.heapCur = tag + 4096 * pages) (word : v.heapCur + 0x400000 < 2 ^ 32)
    (calls : chunkSet v.calls = insert (tag, 4096 * pages) (chunkSet s.vmm.calls))
    (least : 16 ≤ pages) (few : pages ≤ 1025) (small : size < 2 ^ 32) :
    tag ∉ T ∧ Blocks ({ s with vmm := v }.writeTag tag size (4096 * pages)) (insert tag T) F 0 ∧
      Spares s T F 0 ({ s with vmm := v }.writeTag tag size (4096 * pages)) (insert tag T) F tag ∧
      ({ s with vmm := v }.writeTag tag size (4096 * pages)).get .realSize tag = 4096 * pages := by
  have under : ∀ t ∈ T, t + 32 ≤ tag := by
    intro t ht
    obtain ⟨c, hc, _, high, _⟩ := h.tiled.inside t ht
    have := (h.below c hc).1
    have := h.long ht
    omega
  have fresh : tag ∉ T := fun mem => by
    have := under tag mem
    omega
  have apart : HeadersApart (insert tag T) :=
    h.apart.insert (by omega) (fun t mem => .inl (under t mem))
  have up : ∀ {t}, t ∈ T → t ∈ insert tag T := Finset.mem_insert_of_mem
  have self : tag ∈ insert tag T := Finset.mem_insert_self tag T
  have other : ∀ t ∈ T, t ≠ tag := fun t mem e => fresh (e ▸ mem)
  have get := fun u hu => writeTag_get { s with vmm := v } apart self hu small
    (by omega : 4096 * pages < 2 ^ 32) (u := u)
  generalize made : ({ s with vmm := v }.writeTag tag size (4096 * pages)) = s' at get
  have heads : s'.freePages = s.freePages := made ▸ rfl
  have vmm : s'.vmm = v := made ▸ rfl
  have old : ∀ t ∈ T, ∀ g, s'.get g t = s.get g t := by
    intro t mem g
    rw [get t (up mem) g, if_neg (other t mem)]
    rfl
  have indices : ∀ t ∈ T, s'.index t = s.index t := by
    intro t mem
    unfold Heap.index
    rw [old t mem]
  have own : ∀ g, s'.get g tag = _ := fun g => (get tag self g).trans (if_pos rfl)
  obtain ⟨_, tiled⟩ := h.tiled.addChunk sizeofTag_pos node
    (by unfold sizeofTag; omega : sizeofTag ≤ 4096 * pages) (fun d hd => .inl (cur ▸ (h.below d hd).1))
    (fun t mem => old t mem .realSize) (fun t mem => old t mem .splitLeft)
    (fun t mem => old t mem .splitRight) ⟨own .realSize, own .splitLeft, own .splitRight⟩
  refine ⟨fresh, ⟨?_, ?_, fun t mem => up (h.free_sub mem), h.hand_loose, ?_, ?_, ?_, ?_, ?_⟩, ?_,
    own .realSize⟩
  · rw [vmm, calls]
    exact tiled
  · exact h.linked.congr (fun b _ => congrFun heads b) (fun t mem => indices t (h.free_sub mem))
      (fun t mem => old t (h.free_sub mem) .next) (fun t mem => old t (h.free_sub mem) .prev)
  · intro t mem _
    rcases Finset.mem_insert.mp mem with rfl | memT
    · have minus : s'.index t = -1 := by
        unfold Heap.index
        rw [own .index]
        exact signed_ofInt (by decide) (by decide)
      rw [minus]
      exact ⟨fun nonneg => absurd nonneg (by decide), fun free => absurd (h.free_sub free) fresh⟩
    · rw [indices t memT]
      exact h.free_iff t memT (fun z => h.null (z ▸ memT))
  · intro t mem loose
    rcases Finset.mem_insert.mp mem with rfl | memT
    · exact ⟨own .next, own .prev⟩
    · rw [old t memT, old t memT]
      exact h.loose t memT loose
  · intro t mem
    rcases Finset.mem_insert.mp mem with rfl | memT
    · exact own .magic
    · rw [old t memT]
      exact h.magic t memT
  · rw [vmm, calls]
    rintro c (rfl | hc)
    · exact ⟨by dsimp only; omega, pages, least, few, rfl⟩
    · obtain ⟨low, whole⟩ := h.below c hc
      exact ⟨by omega, whole⟩
  · rw [vmm]
    exact word
  · intro t mem free _
    exact ⟨up mem, free, other t mem, old t mem .size, old t mem .realSize⟩

end NewChunk

/-- What the globals of an operation on the heap do: the hooks stay in their
limits, and nothing else but the lists changes. -/
structure Steady (s s' : Heap) : Prop where
  limits : Limits s'.vmm
  lock : s'.lock = s.lock
  initialized : s'.initialized = s.initialized

theorem Steady.of_same {s s' : Heap} (limits : Limits s.vmm) (same : SameGlobals s s') : Steady s s' :=
  ⟨same.1 ▸ limits, same.2.1, same.2.2.1⟩

theorem Steady.trans {s t u : Heap} (h : Steady s t) (k : Steady t u) : Steady s u :=
  ⟨k.limits, k.lock.trans h.lock, k.initialized.trans h.initialized⟩

def Obtained (s : Heap) (T F : Finset Nat) (size : Nat) (s' : Heap) (tag : Nat) : Prop :=
  tag = 0 ∧ Blocks s' T F 0 ∧ Spares s T F 0 s' T F 0 ∨
  ∃ T' F', tag ∈ T' ∧ tag ∉ F' ∧ Blocks s' T' F' 0 ∧ Spares s T F 0 s' T' F' tag ∧
    size + 32 ≤ s'.get .realSize tag

theorem Blocks.allocateNewTag {s : Heap} {T F : Finset Nat} (h : Blocks s T F 0)
    (limits : Limits s.vmm) {size : Nat} (honest : Honest s.vmm size) :
    ∃ s' tag, s.allocateNewTag size = some (s', tag) ∧ Steady s s' ∧
      Obtained s T F size s' tag := by
  obtain ⟨low, few⟩ := honest
  have usage : wrap (sizeofTag + size) = 32 + size := wrap_eq (n := 32 + size) low
  obtain ⟨least, enough⟩ := neededPages_enough (32 + size)
  generalize pagesOf : neededPages (32 + size) = pages at least few enough
  obtain ⟨v, r, call, limits', _, grown, outcome⟩ := liballocAlloc_grows s.vmm limits few
  have word : v.heapCur + 0x400000 < 2 ^ 32 := by
    have := limits'.below
    have := limits'.room.fits
    omega
  rw [allocateNewTag_apart]
  rw [usage, pagesOf, call]
  rcases outcome with ⟨null, calls⟩ | ⟨node, few, cur, next, calls⟩
  · have same : Spares s T F 0 { s with vmm := v } T F 0 := Spares.refl s T F 0
    have kept : Steady s { s with vmm := v } := ⟨limits', rfl, rfl⟩
    rw [null]
    exact ⟨{ s with vmm := v }, 0, rfl, kept, .inl ⟨rfl, h.withVmm calls grown word, same⟩⟩
  · have real : wrap (pages * libPageSize) = 4096 * pages := by
      unfold libPageSize
      rw [Nat.mul_comm]
      exact wrap_eq (n := 4096 * pages) (by omega)
    obtain ⟨fresh, blocks, spares, len⟩ := h.newChunk cur node (cur ▸ next) word calls least few
      (by omega : size < 2 ^ 32)
    have kept : Steady s ({ s with vmm := v }.writeTag r size (4096 * pages)) := ⟨limits', rfl, rfl⟩
    rw [Option.map_some, if_neg node, real]
    dsimp only
    exact ⟨_, r, rfl, kept, .inr ⟨insert r T, F, Finset.mem_insert_self r T,
      fun mem => fresh (h.free_sub mem), blocks, spares, by omega⟩⟩

theorem Blocks.allocateNewTag_refused {s : Heap} {T F : Finset Nat} (h : Blocks s T F 0)
    (limits : Limits s.vmm) {size : Nat}
    (refused : s.vmm.refuses (neededPages (wrap (sizeofTag + size)))) :
    ∃ s', s.allocateNewTag size = some (s', 0) ∧ Steady s s' ∧ Blocks s' T F 0 ∧
      Spares s T F 0 s' T F 0 := by
  have inside := limits.below
  have top := limits.room.fits
  have asked := liballocAlloc_eq s.vmm (neededPages (wrap (sizeofTag + size))) (by omega)
  rw [if_pos refused] at asked
  have outside := chunkSet_refused s.vmm.calls (neededPages (wrap (sizeofTag + size)))
  rw [allocateNewTag_apart]
  rw [asked, Option.map_some]
  dsimp only
  rw [if_pos rfl]
  refine ⟨_, rfl, ⟨⟨limits.aligned, limits.below, limits.room⟩, rfl, rfl⟩, ?_, Spares.refl s T F 0⟩
  exact h.withVmm outside (Nat.le_refl _) h.word

theorem search_null (s : Heap) (size : Nat) {fuel : Nat} (enough : 0 < fuel) :
    s.search size fuel 0 = some 0 := by
  obtain ⟨fuel, rfl⟩ : ∃ f, fuel = f + 1 := ⟨fuel - 1, by omega⟩
  rw [Heap.search, if_pos rfl]

theorem search_ends (s : Heap) (size n fuel tag : Nat) (last : (s.get .next)^[n] tag = 0)
    (enough : n < fuel) : ∃ found i, s.search size fuel tag = some found ∧
      found = (s.get .next)^[i] tag ∧ (∀ j, j < i → (s.get .next)^[j] tag ≠ 0) ∧
      (found ≠ 0 → wsub (s.get .realSize found) sizeofTag ≥ wrap (sizeofTag + size)) := by
  induction n generalizing fuel tag with
  | zero =>
    obtain ⟨fuel, rfl⟩ : ∃ f, fuel = f + 1 := ⟨fuel - 1, by omega⟩
    have null : tag = 0 := last
    refine ⟨0, 0, ?_, null.symm, fun j hj => absurd hj (Nat.not_lt_zero j), fun h => absurd rfl h⟩
    rw [Heap.search, if_pos null]
  | succ n ih =>
    obtain ⟨fuel, rfl⟩ : ∃ f, fuel = f + 1 := ⟨fuel - 1, by omega⟩
    rw [Heap.search]
    by_cases null : tag = 0
    · rw [if_pos null]
      exact ⟨0, 0, rfl, null.symm, fun j hj => absurd hj (Nat.not_lt_zero j), fun h => absurd rfl h⟩
    · rw [if_neg null]
      split
      · rename_i fit
        exact ⟨tag, 0, rfl, rfl, fun j hj => absurd hj (Nat.not_lt_zero j), fun _ => fit⟩
      · obtain ⟨found, i, result, here, before, fit⟩ := ih fuel (s.get .next tag) last (by omega)
        refine ⟨found, i + 1, result, here, ?_, fit⟩
        intro j hj
        cases j with
        | zero => exact null
        | succ j => exact before j (by omega)

theorem Blocks.search {s : Heap} {T F : Finset Nat} {hand : Nat} (h : Blocks s T F hand)
    (size : Nat) {b : Int} (valid : b ∈ validBuckets) :
    ∃ found, s.search size loopFuel (s.freePages b) = some found ∧
      (found ≠ 0 → found ∈ F ∧
        wsub (s.get .realSize found) sizeofTag ≥ wrap (sizeofTag + size)) := by
  obtain ⟨n, short, last⟩ := h.linked.walk_ends valid
  have few := Nat.lt_of_le_of_lt (Finset.card_le_card h.free_sub) h.card_lt
  obtain ⟨found, i, result, here, before, fit⟩ := search_ends s size n loopFuel (s.freePages b) last
    (Nat.lt_of_le_of_lt short few)
  refine ⟨found, result, fun node => ⟨?_, fit node⟩⟩
  rw [here] at node ⊢
  refine (h.linked.walk_mem valid i ?_).1
  intro j hj
  rcases Nat.lt_or_eq_of_le hj with less | rfl
  · exact before j less
  · exact node

theorem Blocks.obtainTag {s : Heap} {T F : Finset Nat} (h : Blocks s T F 0)
    (limits : Limits s.vmm) {size found : Nat} (honest : Honest s.vmm size)
    (fit : found ≠ 0 → found ∈ F ∧
      wsub (s.get .realSize found) sizeofTag ≥ wrap (sizeofTag + size)) :
    ∃ s' tag, s.obtainTag size found = some (s', tag) ∧ Steady s s' ∧
      Obtained s T F size s' tag := by
  unfold Heap.obtainTag
  by_cases null : found = 0
  · rw [if_pos null]
    exact h.allocateNewTag limits honest
  · rw [if_neg null]
    obtain ⟨free, enough⟩ := fit null
    have mem := h.free_sub free
    have long := h.long mem
    have short := h.fits mem
    have low := honest.1
    have room : size + 64 ≤ s.get .realSize found := by
      simp only [wsub, wrap, sizeofTag] at enough
      omega
    have out := h.removeTag free
    have spares : Spares s T F 0 (s.removeTag found) T (F.erase found) found := removeTag_spares h free
    have steady := Steady.of_same limits (removeTag_globals s found)
    have real := removeTag_get h.apart h.null s mem mem (h.prev_tag free) (h.next_tag free) .realSize
    dsimp only
    generalize s.removeTag found = s' at out spares steady real
    refine ⟨_, found, rfl, ?_, .inr ⟨T, F.erase found, mem, Finset.notMem_erase found F, ?_, ?_, ?_⟩⟩
    · split
      · exact ⟨steady.limits, steady.lock, steady.initialized⟩
      · exact steady
    · split
      · exact out.congr (fun _ _ _ _ => rfl) (fun _ _ => rfl) rfl rfl
      · exact out
    · split
      · exact spares
      · exact spares
    · have kept : s'.get .realSize found = s.get .realSize found := real
      split
      · change _ ≤ s'.get .realSize found
        omega
      · omega

/-- The remainder is positive as an int, so the subtraction did not wrap. -/
theorem split_room {real size : Nat} (fits : real + 0x400000 < 2 ^ 32) (room : size + 32 ≤ real)
    (big : signed (wsub (wsub real size) (sizeofTag * 2)) > 0) : size + 64 ≤ real := by
  by_contra short
  have negative : 2 ^ 31 ≤ wsub (wsub real size) (sizeofTag * 2) := by
    simp only [wsub, wrap, sizeofTag]
    omega
  have := signed_neg negative (wrap_lt _)
  omega

theorem Blocks.useTag {s : Heap} {T F : Finset Nat} (h : Blocks s T F 0) {tag size : Nat}
    (ht : tag ∈ T) (free : tag ∉ F) (room : size + 32 ≤ s.get .realSize tag) :
    ∃ T' F', tag ∈ T' ∧ tag ∉ F' ∧ Blocks (s.useTag tag size) T' F' 0 ∧
      SameGlobals s (s.useTag tag size) ∧ Spares s T F tag (s.useTag tag size) T' F' tag ∧
      (s.useTag tag size).get .size tag = size ∧
      size + 32 ≤ (s.useTag tag size).get .realSize tag := by
  have fits := h.fits ht
  have get := fun g u hu => get_set h.apart s .size g ht hu (v := size) (u := u) (by omega)
  have marked : Blocks (s.set .size tag size) T F 0 := by
    refine h.congr ?_ (fun _ _ => rfl) rfl rfl
    intro t mem g other
    rw [get g t mem, if_neg (fun e => other e.2)]
  have sizeOf : (s.set .size tag size).get .size tag = size := by
    rw [get .size tag ht, if_pos ⟨rfl, rfl⟩]
  have realOf : ∀ t ∈ T, (s.set .size tag size).get .realSize t = s.get .realSize t := by
    intro t mem
    rw [get .realSize t mem, if_neg (fun e => absurd e.2 (by decide))]
  have others : ∀ t ∈ T, t ≠ tag → (s.set .size tag size).get .size t = s.get .size t := by
    intro t mem other
    rw [get .size t mem, if_neg (fun e => other e.1)]
  have globals : SameGlobals s (s.set .size tag size) := ⟨rfl, rfl, rfl, rfl⟩
  unfold Heap.useTag
  dsimp only
  rw [realOf tag ht]
  generalize s.set .size tag size = m at marked sizeOf realOf others globals
  split
  · rename_i big
    have enough : m.get .size tag + 64 ≤ m.get .realSize tag := by
      rw [sizeOf, realOf tag ht]
      exact split_room (by omega) room big.1
    have fresh := marked.newTag_fresh ht enough rfl
    obtain ⟨blocks, kept⟩ := marked.splitTag ht enough rfl
    have splitGlobals : SameGlobals m (m.splitTag tag) :=
      (cutTag_rest m tag).1.trans (insertTag_rest _ _ _).1
    have apartFrom : ∀ t ∈ T, t ∉ F → t ∉ insert (tag + (32 + m.get .size tag)) F := by
      intro t mem loose
      rw [Finset.mem_insert, not_or]
      exact ⟨fun e => fresh (e ▸ mem), loose⟩
    refine ⟨insert (tag + (32 + m.get .size tag)) T, insert (tag + (32 + m.get .size tag)) F,
      Finset.mem_insert_of_mem ht, apartFrom tag ht free, blocks, globals.trans splitGlobals, ?_,
      (kept tag ht).1.trans sizeOf, ?_⟩
    · intro t mem loose other
      obtain ⟨size', real'⟩ := kept t mem
      rw [if_neg other] at real'
      exact ⟨Finset.mem_insert_of_mem mem, apartFrom t mem loose, other,
        size'.trans (others t mem other), real'.trans (realOf t mem)⟩
    · rw [(kept tag ht).2, if_pos rfl, sizeOf]
      omega
  · refine ⟨T, F, ht, free, marked, globals, ?_, sizeOf, ?_⟩
    · intro t mem loose other
      exact ⟨mem, loose, other, others t mem other, realOf t mem⟩
    · rw [realOf tag ht]
      exact room

/-- The heap with its lists cleared, if malloc has not run yet; the lock is free. -/
structure Ready (s : Heap) (T F : Finset Nat) : Prop where
  lock : s.lock = 0
  limits : Limits s.vmm
  blocks : Blocks s.initialize T F 0

theorem initialize_rest (s : Heap) : s.initialize.mem = s.mem ∧ s.initialize.vmm = s.vmm ∧
    s.initialize.initialized ≠ 0 := by
  unfold Heap.initialize
  split
  · exact ⟨rfl, rfl, Nat.one_ne_zero⟩
  · rename_i done
    exact ⟨rfl, rfl, done⟩

theorem initialize_done {s : Heap} (done : s.initialized ≠ 0) : s.initialize = s := if_neg done

theorem Blocks.withLock {s : Heap} {T F : Finset Nat} {hand : Nat} (h : Blocks s T F hand) (l : Nat) :
    Blocks { s with lock := l } T F hand :=
  h.congr (fun _ _ _ _ => rfl) (fun _ _ => rfl) rfl rfl

theorem Ready.locked {s : Heap} {T F : Finset Nat} (h : Ready s T F) :
    s.liballocLock = some { s with lock := 1 } := if_pos h.lock

theorem Ready.unlock {s : Heap} {T F : Finset Nat} (started : s.initialized ≠ 0)
    (limits : Limits s.vmm) (blocks : Blocks s T F 0) : Ready s.liballocUnlock T F := by
  refine ⟨rfl, limits, ?_⟩
  rw [initialize_done (s := s.liballocUnlock) started]
  exact blocks.withLock 0

structure Heap.Exhausted (s : Heap) (size : Nat) : Prop where
  none : s.search size loopFuel (s.freePages (bucket size)) = some 0
  refused : s.vmm.refuses (neededPages (wrap (sizeofTag + size)))

/-- The hook does not misjudge the request, or turns it away. -/
def Heap.Serves (s : Heap) (size : Nat) : Prop := Honest s.vmm size ∨ s.Exhausted size

theorem Blocks.malloc {s : Heap} {T F : Finset Nat} (h : Blocks s T F 0) (limits : Limits s.vmm)
    {size : Nat} (serves : s.Serves size) :
    ∃ found s' tag, s.search size loopFuel (s.freePages (bucket size)) = some found ∧
      s.obtainTag size found = some (s', tag) ∧
      (tag = 0 ∧ Steady s s' ∧ Blocks s' T F 0 ∧ Spares s T F 0 s' T F 0 ∨
        tag ≠ 0 ∧ wrap (sizeofTag + tag) = 32 + tag ∧ Steady s (s'.useTag tag size) ∧
        ∃ T' F', tag ∈ T' ∧ tag ∉ F' ∧ Blocks (s'.useTag tag size) T' F' 0 ∧
          Spares s T F 0 (s'.useTag tag size) T' F' tag ∧
          (s'.useTag tag size).get .size tag = size ∧
          size + 32 ≤ (s'.useTag tag size).get .realSize tag) := by
  obtain ⟨found, searched, fit⟩ := h.search size (bucket_valid size)
  rcases serves with honest | ⟨none, refused⟩
  swap
  · obtain ⟨u, asked, steady, inv, spares⟩ := h.allocateNewTag_refused limits refused
    exact ⟨0, u, 0, none, asked, .inl ⟨rfl, steady, inv, spares⟩⟩
  obtain ⟨u, tag, obtained, steady, outcome⟩ := h.obtainTag limits honest fit
  refine ⟨found, u, tag, searched, obtained, ?_⟩
  rcases outcome with ⟨null, inv, spares⟩ | ⟨T', F', memT, free, inv, spares, room⟩
  · exact .inl ⟨null, steady, inv, spares⟩
  · have fits := inv.fits memT
    obtain ⟨T'', F'', memT'', free', inv', globals, spares', sizeOf, realOf⟩ :=
      inv.useTag memT free room
    have pointer : wrap (sizeofTag + tag) = 32 + tag := wrap_eq (n := 32 + tag) (by omega)
    exact .inr ⟨fun e => inv.null (e ▸ memT), pointer, steady.trans (.of_same steady.limits globals),
      T'', F'', memT'', free', inv', spares.trans spares', sizeOf, realOf⟩

def Heap.entered (s : Heap) : Heap := { s.initialize with lock := 1 }

theorem entered_eq (s : Heap) : Heap.initialize { s with lock := 1 } = s.entered := by
  unfold Heap.entered Heap.initialize
  dsimp only
  split <;> rfl

theorem entered_vmm (s : Heap) : s.entered.vmm = s.vmm := (initialize_rest s).2.1

theorem malloc_entered {s : Heap} (unlocked : s.lock = 0) (size : Nat)
    (hooks : PageHooks := .apart) : s.malloc size hooks =
    (s.entered.search size loopFuel (s.entered.freePages (bucket size))).bind fun found =>
      (s.entered.obtainTag size found hooks).map fun r =>
        if r.2 = 0 then (r.1.liballocUnlock, 0)
        else ((r.1.useTag r.2 size).liballocUnlock, wrap (sizeofTag + r.2)) := by
  have locked : s.liballocLock = some { s with lock := 1 } := if_pos unlocked
  unfold Heap.malloc
  rw [locked, Option.bind_some]
  dsimp only
  rw [entered_eq]

theorem Ready.entered {s : Heap} {T F : Finset Nat} (h : Ready s T F) : Blocks s.entered T F 0 ∧
    Limits s.entered.vmm ∧ s.entered.initialized ≠ 0 ∧ Spares s T F 0 s.entered T F 0 := by
  obtain ⟨mem, vmm, started⟩ := initialize_rest s
  have limits : Limits s.initialize.vmm := by
    rw [vmm]
    exact h.limits
  refine ⟨h.blocks.withLock 1, limits, started, ?_⟩
  intro t ht free other
  unfold Heap.get Heap.entered
  rw [mem]
  exact ⟨ht, free, other, rfl, rfl⟩

/-- malloc returns NULL, or a block of the size that was asked for. -/
theorem Ready.malloc {s : Heap} {T F : Finset Nat} (h : Ready s T F) {size : Nat}
    (serves : s.entered.Serves size) : ∃ s' p T' F', s.malloc size = some (s', p) ∧ Ready s' T' F' ∧
      s'.initialized ≠ 0 ∧
      (p = 0 ∧ Spares s T F 0 s' T' F' 0 ∨
       ∃ tag ∈ T', tag ∉ F' ∧ p = 32 + tag ∧ Spares s T F 0 s' T' F' tag ∧
        s'.get .size tag = size ∧ size + 32 ≤ s'.get .realSize tag) := by
  obtain ⟨blocks, limits, started, start⟩ := h.entered
  rw [malloc_entered h.lock]
  generalize s.entered = m at blocks start limits started serves
  obtain ⟨found, u, tag, searched, obtained, outcome⟩ := blocks.malloc limits serves
  rw [searched, Option.bind_some, obtained, Option.map_some]
  dsimp only
  rcases outcome with ⟨null, steady, inv, spares⟩ |
    ⟨node, pointer, steady, T', F', memT, free, inv, spares, sizeOf, realOf⟩
  · have startedU : u.initialized ≠ 0 := by
      rw [steady.initialized]
      exact started
    rw [if_pos null]
    exact ⟨u.liballocUnlock, 0, T, F, rfl, .unlock startedU steady.limits inv, startedU,
      .inl ⟨rfl, start.trans spares⟩⟩
  · rw [if_neg node, pointer]
    generalize u.useTag tag size = w at steady inv spares sizeOf realOf
    have startedW : w.initialized ≠ 0 := by
      rw [steady.initialized]
      exact started
    exact ⟨w.liballocUnlock, 32 + tag, T', F', rfl, .unlock startedW steady.limits inv, startedW,
      .inr ⟨tag, memT, free, rfl, start.trans spares, sizeOf, realOf⟩⟩

end RiseOS
