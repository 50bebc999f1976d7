import RiseOS.Heap.Sizes

/-! malloc searches the list of the size asked for, and no other one. -/
namespace RiseOS
open Words Runs Links Tiling

inductive InList (s : Heap) : Nat → Nat → Prop
  | here {t : Nat} : t ≠ 0 → InList s t t
  | next {tag t : Nat} : tag ≠ 0 → InList s (s.get .next tag) t → InList s tag t

def Heap.fitTest (s : Heap) (size tag : Nat) : Prop :=
  wsub (s.get .realSize tag) sizeofTag ≥ wrap (sizeofTag + size)

theorem InList.congr {s s' : Heap} (same : ∀ t, s'.get .next t = s.get .next t) {tag t : Nat}
    (listed : InList s tag t) : InList s' tag t := by
  induction listed with
  | here node => exact .here node
  | next node _ ih => exact .next node (by rwa [same])

theorem search_null_fits {s : Heap} {size fuel tag t : Nat} (listed : InList s tag t)
    (fit : s.fitTest size t) : s.search size fuel tag ≠ some 0 := by
  induction listed generalizing fuel with
  | here node =>
    cases fuel with
    | zero => simp [Heap.search]
    | succ fuel =>
      unfold Heap.fitTest at fit
      rw [Heap.search, if_neg node, if_pos fit]
      intro zero
      exact node (Option.some.inj zero)
  | next node _ ih =>
    cases fuel with
    | zero => simp [Heap.search]
    | succ fuel =>
      rw [Heap.search, if_neg node]
      split
      · intro zero
        exact node (Option.some.inj zero)
      · exact ih fit

theorem search_listed {s : Heap} {size fuel tag found : Nat}
    (searched : s.search size fuel tag = some found) (node : found ≠ 0) :
    InList s tag found ∧ s.fitTest size found := by
  induction fuel generalizing tag with
  | zero => cases searched
  | succ fuel ih =>
    rw [Heap.search] at searched
    split at searched
    · exact absurd (Option.some.inj searched).symm node
    · rename_i here
      split at searched
      · rename_i fit
        obtain rfl := Option.some.inj searched
        exact ⟨.here here, fit⟩
      · obtain ⟨listed, fit⟩ := ih searched
        exact ⟨.next here listed, fit⟩

/-- The list that malloc(size) searches has the tag, and it passes the test. -/
def Heap.offers (s : Heap) (size t : Nat) : Prop :=
  let m := s.initialize
  InList m (m.freePages (bucket size)) t ∧ m.fitTest size t

/-- Taking the lock changes no list and no header. -/
theorem offers_iff_entered {s : Heap} {size t : Nat} : s.offers size t ↔
    InList s.entered (s.entered.freePages (bucket size)) t ∧ s.entered.fitTest size t := by
  have same : ∀ t, s.entered.get .next t = s.initialize.get .next t := fun _ => rfl
  have back : ∀ t, s.initialize.get .next t = s.entered.get .next t := fun _ => rfl
  constructor
  · rintro ⟨listed, fit⟩
    exact ⟨listed.congr same, fit⟩
  · rintro ⟨listed, fit⟩
    exact ⟨listed.congr back, fit⟩

/-- In any state at all: NULL, with a tag that fits in the list, is the block of a
tag in the last bytes of the address space. -/
theorem malloc_null_offered {hooks : PageHooks} {s s' : Heap} {size t : Nat}
    (offered : s.offers size t) (call : s.malloc size hooks = some (s', 0)) : ∃ u, s.offers size u ∧ wrap (sizeofTag + u) = 0 := by
  have unlocked : s.lock = 0 := by
    obtain ⟨_, locked, _⟩ := Option.bind_eq_some_iff.mp call
    exact (liballocLock_some locked).1
  rw [malloc_entered unlocked size hooks] at call
  simp only [Option.bind_eq_some_iff, Option.map_eq_some_iff] at call
  obtain ⟨found, searched, ⟨m, tag⟩, obtained, result⟩ := call
  obtain ⟨listed, fit⟩ := offers_iff_entered.mp offered
  have node : found ≠ 0 := by
    rintro rfl
    exact search_null_fits listed fit searched
  rw [Heap.obtainTag, if_neg node] at obtained
  obtain ⟨_, same⟩ := Prod.mk.inj (Option.some.inj obtained)
  subst same
  dsimp only at result
  rw [if_neg node] at result
  exact ⟨found, offers_iff_entered.mpr (search_listed searched node), (Prod.mk.inj result).2⟩

/-- A tag that fits in the list searched is enough, whatever the hook would say. -/
theorem Ready.malloc_finds {s : Heap} {T F : Finset Nat} (h : Ready s T F) {size t : Nat}
    (offered : s.offers size t) (hooks : PageHooks) :
    ∃ s' p, s.malloc size hooks = some (s', p) ∧ p ≠ 0 := by
  obtain ⟨blocks, _, _, _⟩ := h.entered
  obtain ⟨found, searched, chosen⟩ := blocks.search size (bucket_valid size)
  obtain ⟨listed, fit⟩ := offers_iff_entered.mp offered
  have node : found ≠ 0 := by
    rintro rfl
    exact search_null_fits listed fit searched
  have fits := blocks.fits (blocks.free_sub (chosen node).1)
  have pointer : wrap (sizeofTag + found) = 32 + found := wrap_eq (n := 32 + found) (by omega)
  rw [malloc_entered h.lock size hooks, searched, Option.bind_some, Heap.obtainTag, if_neg node]
  dsimp only
  rw [Option.map_some]
  dsimp only
  rw [if_neg node, pointer]
  exact ⟨_, _, rfl, by omega⟩

/-- While the list of its size has a tag that fits, malloc does not return NULL, but
for a tag whose block is at NULL; where all sizes of the run fit, it makes no page table
and its clears spare the heap, malloc returns a block. -/
theorem listed_tag_is_found (bitmapAt : Nat) (h : Heap) (start : h.BootedPaged)
    (ops : List ClientOp) :
    Always pagedStep (fun s => ∀ size t, s.heap.offers size t →
      ∀ heap, s.heap.malloc size .aliased = some (heap, 0) →
        ∃ u, s.heap.offers size u ∧ wrap (sizeofTag + u) = 0) ⟨h, []⟩ ops ∧
    (Permitted pagedStep (FitAllowed bitmapAt) ⟨h, []⟩ ops →
      Always pagedStep (fun s => ∀ size t, s.heap.offers size t →
        ∃ heap p, s.heap.malloc size .aliased = some (heap, p) ∧ p ≠ 0) ⟨h, []⟩ ops) := by
  refine ⟨?_, ?_⟩
  · intro done before s reached size t offered heap call
    exact malloc_null_offered offered call
  · intro permitted
    have spared := (paged_permitted start.below).mp permitted
    obtain ⟨_, always⟩ := heap_run
      (fun s op window ok => SizeFits.served window ok.1.1.1 ok.1.1.2)
      (fun s s' op T F inv window ok step =>
        inv.keeps_window (SizeFits.served window ok.1.1.1 ok.1.1.2) window step)
      (booted_inv start.toBooted) start.window ops spared
    refine (paged_always start.below spared).mpr ?_
    intro done before s reached size t offered
    obtain ⟨⟨T, F, inv⟩, _⟩ := always done before s reached
    exact inv.ready.malloc_finds offered .aliased

/-- The pages behind 1017 of `heapAt3M`'s. -/
def pagesTaken : Vmm :=
  { ((heapAt3M.paging.liballocAlloc 1017).getD (heapAt3M.paging, 0)).1 with
    heapStart := 0x303400, heapCur := 0x6fc400, heapEnd := 0x703400 }

theorem pagesTaken_eq : heapAt3M.paging.liballocAlloc 1017 = some (pagesTaken, 0x303400) := by
  obtain ⟨v, call, start, stop, cur, _⟩ :=
    liballocAlloc_returns heapAt3M.paging 1017 (by decide) (by decide) (by decide)
  have first : heapAt3M.paging.heapCur = 0x303400 := rfl
  have begins : v.heapStart = 0x303400 := start
  have moved : v.heapCur = 0x6fc400 := cur.trans (by decide)
  have fixed : v.heapEnd = 0x703400 := stop
  have same : v = pagesTaken := by
    unfold pagesTaken
    rw [call, Option.getD_some, ← begins, ← moved, ← fixed]
  rw [call, first, same]

/-- `heapAt3M` with one block in these pages. -/
def filledHeap : Heap :=
  (((heapAt3M.entered.withPaging pagesTaken).writeTag
    0x303400 0x3f8fe0 0x3f9000).useTag 0x303400 0x3f8fe0).liballocUnlock

theorem filledHeap_eq : heapAt3M.malloc 0x3f8fe0 .aliased = some (filledHeap, 0x303420) := by
  have pages : neededPages (wrap (sizeofTag + 0x3f8fe0)) = 1017 := by decide
  have empty : heapAt3M.entered.freePages (bucket 0x3f8fe0) = 0 := by decide
  have same : heapAt3M.entered.paging = heapAt3M.paging := rfl
  have count : ((1017 : Nat) : Int) = 1017 := rfl
  have asked : PageHooks.aliased.alloc heapAt3M.entered ((1017 : Nat) : Int) =
      some (heapAt3M.entered.withPaging pagesTaken, 0x303400) := by
    unfold PageHooks.aliased
    dsimp only
    rw [same, count, pagesTaken_eq]
    rfl
  rw [malloc_entered rfl 0x3f8fe0 .aliased, empty, search_null _ _ (by decide), Option.bind_some,
    Heap.obtainTag, if_pos rfl, Heap.allocateNewTag, pages]
  dsimp only
  rw [asked]
  rfl

/-- All but seven pages are one free block in the list of its size; 100 bytes are
looked for in another list. -/
theorem free_block_not_found :
    Permitted pagedStep ClientAllowed ⟨heapAt3M, []⟩ [.malloc 0x3f8fe0, .free 0x303420] ∧
    ∃ s, run pagedStep ⟨heapAt3M, []⟩ [.malloc 0x3f8fe0, .free 0x303420] = some s ∧
      InList s.heap (s.heap.freePages 21) 0x303400 ∧ s.heap.fitTest 100 0x303400 ∧
      ∃ heap, s.heap.malloc 100 .aliased = some (heap, 0) := by
  have first : pagedStep ⟨heapAt3M, []⟩ (.malloc 0x3f8fe0) =
      some ⟨filledHeap, [(0x303420, 0x3f8fe0)]⟩ := by
    rw [pagedStep, filledHeap_eq]
    rfl
  refine ⟨⟨by decide, fun s step => ?_⟩, ?_⟩
  · rw [first] at step
    obtain rfl := Option.some.inj step
    exact ⟨by decide, fun _ _ => trivial⟩
  have freed : (filledHeap.free 0x303420 .aliased).any (fun h => h.freePages 21 = 0x303400 ∧
      wsub (h.get .realSize 0x303400) sizeofTag ≥ wrap (sizeofTag + 100) ∧
      (h.malloc 100 .aliased).any (fun r => r.2 = 0)) = true := by decide +kernel
  obtain ⟨h, call, found⟩ := Option.any_eq_true _ _ |>.mp freed
  obtain ⟨head, fit, asked⟩ := of_decide_eq_true found
  obtain ⟨⟨heap, p⟩, returned, null⟩ := Option.any_eq_true _ _ |>.mp asked
  obtain rfl : p = 0 := of_decide_eq_true null
  refine ⟨⟨h, []⟩, ?_, ?_, fit, heap, returned⟩
  · rw [run_cons, first, Option.bind_some, run_cons, pagedStep, call]
    rfl
  · dsimp only
    rw [head]
    exact .here (by decide)

/-- A free block of 64 KiB is found for 40000 bytes. -/
theorem freed_chunk_is_found :
    Always pagedStep (fun s => ∀ size t, s.heap.offers size t →
      ∃ heap p, s.heap.malloc size .aliased = some (heap, p) ∧ p ≠ 0)
      ⟨heapAt3M, []⟩ [.malloc 65000, .free 0x303420] :=
  (listed_tag_is_found bitmapAt3M heapAt3M heapAt3M_paged _).2
    ((paged_permitted heapAt3M_paged.below).mpr (by decide +kernel))

end RiseOS
