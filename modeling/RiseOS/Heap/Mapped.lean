import RiseOS.Heap.Paged
import RiseOS.Paging.Presence

/-! The pages under the chunks: present while a chunk is out, unless a
neighbouring chunk that shares a page with it goes back. -/
namespace RiseOS
open Words Runs Links Tiling

/-- The heap's pages in their tables, and those of the chunks present. -/
structure HeapMapped (first base : Nat) (v : Vmm) : Prop where
  tables : TwoSlots first base v
  start : v.heapStart ≤ v.heapCur
  slot : v.heapStart / 2 ^ 22 = first
  stop : v.heapEnd = v.heapStart + heapSize
  aligned : ∀ c ∈ chunkSet v.calls, c.1 % 4096 = v.heapEnd % 4096
  present : ∀ c ∈ chunkSet v.calls, ∀ a ∈ bytes c.1 c.2, PagePresent v a

section Hooks

variable {first base : Nat} {v v' : Vmm} (inv : HeapMapped first base v) (limits : Limits v)
  {pages : Nat} (few : pages ≤ 1025)
include inv limits few

theorem HeapMapped.region (accepted : ¬ v.refuses pages) :
    wrap (v.heapCur + regionSize pages) = v.heapCur + 4096 * pages ∧
      v.heapCur + 4096 * pages < v.heapEnd ∧
      ∀ va ∈ regionPages v.heapCur (v.heapCur + 4096 * pages), va < 2 ^ 32 ∧ InTwoSlots first va := by
  have fits := accepted_fits limits few accepted
  have top := limits.room.fits
  have stop := inv.stop
  have start := inv.start
  have slot := inv.slot
  have size := heapSize_eq
  refine ⟨?_, fits, ?_⟩
  · rw [regionSize_nat few]
    exact wrap_eq (by omega)
  · intro va inside
    obtain ⟨whole, low, high⟩ := (mem_regionPages _ _ _).mp inside
    refine ⟨by omega, ?_⟩
    unfold InTwoSlots
    rw [pagedirIndex_eq]
    omega

variable (below : ∀ c ∈ chunkSet v.calls, ChunkBelow v.heapCur c)
include below

theorem HeapMapped.alloc {r : Nat} (call : v.liballocAlloc pages = some (v', r)) :
    HeapMapped first base v' := by
  have top := limits.room.fits
  have inside := limits.below
  rw [liballocAlloc_eq v pages (by omega)] at call
  split at call
  · obtain ⟨rfl, _⟩ := Prod.mk.inj (Option.some.inj call)
    refine ⟨inv.tables.congr rfl rfl, inv.start, inv.slot, inv.stop, ?_, ?_⟩
    · rw [chunkSet_refused]
      exact inv.aligned
    · rw [chunkSet_refused]
      exact inv.present
  · rename_i accepted
    obtain ⟨sum, fits, region⟩ := inv.region limits few accepted
    obtain ⟨tables, mapped⟩ := inv.tables.allocatePages (regionPages v.heapCur (v.heapCur + 4096 * pages))
      v (fun va h => (region va h).1) (fun va h => (region va h).2)
    obtain ⟨start, stop, _, _⟩ := foldl_heap Vmm.allocatePage allocatePage_heap
      (regionPages v.heapCur (v.heapCur + 4096 * pages)) v
    rw [sum, if_pos (by omega)] at call
    generalize (regionPages v.heapCur (v.heapCur + 4096 * pages)).foldl Vmm.allocatePage v = t at *
    obtain ⟨rfl, _⟩ := Prod.mk.inj (Option.some.inj call)
    have old : ∀ c ∈ chunkSet v.calls, ∀ a ∈ bytes c.1 c.2, PagePresent t a := by
      rintro c hc a ⟨low, high⟩
      have := (below c hc).1
      exact mapped a (by omega) (.inr (inv.present c hc a ⟨low, high⟩))
    have new : ∀ a ∈ bytes v.heapCur (4096 * pages), PagePresent t a := by
      rintro a ⟨low, high⟩
      refine mapped a (by omega) (.inl ⟨a / 4096 * 4096, ?_, by omega⟩)
      exact (mem_regionPages _ _ _).mpr ⟨by omega, by omega, by omega⟩
    have aligned : ∀ c ∈ chunkSet v.calls, c.1 % 4096 = t.heapEnd % 4096 := by
      rw [stop]
      exact inv.aligned
    refine ⟨tables.congr rfl rfl, ?_, ?_, ?_, ?_, ?_⟩
    · have := inv.start
      dsimp only
      omega
    · exact start ▸ inv.slot
    · dsimp only
      rw [start, stop]
      exact inv.stop
    · intro c member
      rcases mem_chunkSet_alloc few member with rfl | hc
      · dsimp only
        rw [stop]
        exact limits.aligned
      · exact aligned c hc
    · intro c member
      rcases mem_chunkSet_alloc few member with rfl | hc
      · exact new
      · exact old c hc

theorem HeapMapped.free {ptr : Nat} {r : Int} (call : v.liballocFree ptr pages = some (v', r))
    (chunk : (ptr, 4096 * pages) ∈ chunkSet v.calls)
    (apart : ∀ c ∈ chunkSet v.calls, ∀ d ∈ chunkSet v.calls, c ≠ d → c.1 + c.2 ≤ d.1 ∨ d.1 + d.2 ≤ c.1)
    (borders : ∀ d ∈ chunkSet v.calls, d.1 ≠ ptr → d.1 ≠ ptr + 4096 * pages ∧ d.1 + d.2 ≠ ptr) :
    HeapMapped first base v' := by
  have top := limits.room.fits
  have inside := limits.below
  have fits := (below _ chunk).1
  have aligned := inv.aligned _ chunk
  dsimp only at fits aligned
  have sum : wrap (ptr + regionSize pages) = ptr + 4096 * pages := by
    rw [regionSize_nat few]
    exact wrap_eq (by omega)
  have words : ∀ va ∈ regionPages ptr (ptr + 4096 * pages), va < 2 ^ 32 := by
    intro va hva
    have := (mem_regionPages _ _ _).mp hva
    omega
  obtain ⟨tables, kept⟩ := inv.tables.freePages (regionPages ptr (ptr + 4096 * pages)) v words
  obtain ⟨start, stop, cur, _⟩ := foldl_heap Vmm.freePage freePage_heap
    (regionPages ptr (ptr + 4096 * pages)) v
  rw [liballocFree_eq v ptr pages (by omega), sum, if_pos (by omega)] at call
  generalize (regionPages ptr (ptr + 4096 * pages)).foldl Vmm.freePage v = t at *
  obtain ⟨rfl, _⟩ := Prod.mk.inj (Option.some.inj call)
  refine ⟨tables.congr rfl rfl, ?_, ?_, ?_, ?_, ?_⟩
  · dsimp only
    rw [start, cur]
    exact inv.start
  · exact start ▸ inv.slot
  · dsimp only
    rw [start, stop]
    exact inv.stop
  · dsimp only
    rw [chunkSet_free, stop]
    exact fun d hd => inv.aligned d hd.1
  · dsimp only
    rw [chunkSet_free]
    rintro d ⟨hd, other⟩ a ⟨low, high⟩
    obtain ⟨belowD, count, _, _, sizeD⟩ := below d hd
    have alignedD := inv.aligned d hd
    obtain ⟨behind, before⟩ := borders d hd other
    have far := apart d hd _ chunk (fun e => other (congrArg Prod.fst e))
    dsimp only at far
    refine kept a (by omega) ?_ (inv.present d hd a ⟨low, high⟩)
    intro va hva
    have := (mem_regionPages _ _ _).mp hva
    omega

end Hooks

/-- Every byte of a chunk that is out lies in a present page. -/
def ChunksPresent (v : Vmm) : Prop :=
  ∀ c ∈ outstanding v.calls, ∀ a ∈ bytes c.1 (regionSize c.2), PagePresent v a

/-- free(ptr) gives the chunk back: nothing else in it is live, and there are as
many whole chunks in its list as are kept. -/
structure FreesChunk (s : Client) (ptr : Nat) (c : Nat × Int) : Prop where
  out : c ∈ outstanding s.heap.vmm.calls
  inside : wsub ptr sizeofTag ∈ bytes c.1 (regionSize c.2)
  alone : ∀ b ∈ s.live, wsub b.1 sizeofTag ∈ bytes c.1 (regionSize c.2) → b.1 = ptr
  full : s.heap.completePages (bucket (wsub (regionSize c.2) sizeofTag)) = maxComplete

/-- No chunk goes back while another one begins where it ends or ends where it begins. -/
def BordersNone (s : Client) : ClientOp → Prop
  | .free ptr => ∀ c, FreesChunk s ptr c → ∀ d ∈ outstanding s.heap.vmm.calls,
      d.1 ≠ c.1 + regionSize c.2 ∧ d.1 + regionSize d.2 ≠ c.1
  | .malloc _ | .write _ _ => True

instance (s : Client) (ptr : Nat) (c : Nat × Int) : Decidable (FreesChunk s ptr c) :=
  decidable_of_iff (c ∈ outstanding s.heap.vmm.calls ∧
      (c.1 ≤ wsub ptr sizeofTag ∧ wsub ptr sizeofTag < c.1 + regionSize c.2) ∧
      (∀ b ∈ s.live, c.1 ≤ wsub b.1 sizeofTag ∧ wsub b.1 sizeofTag < c.1 + regionSize c.2 → b.1 = ptr) ∧
      s.heap.completePages (bucket (wsub (regionSize c.2) sizeofTag)) = maxComplete)
    ⟨fun h => ⟨h.1, h.2.1, h.2.2.1, h.2.2.2⟩, fun h => ⟨h.out, h.inside, h.alone, h.full⟩⟩

instance : ∀ s op, Decidable (BordersNone s op)
  | s, .free ptr => decidable_of_iff
      (∀ c ∈ outstanding s.heap.vmm.calls, FreesChunk s ptr c → ∀ d ∈ outstanding s.heap.vmm.calls,
        d.1 ≠ c.1 + regionSize c.2 ∧ d.1 + regionSize d.2 ≠ c.1)
      ⟨fun h c frees => h c frees.out frees, fun h c _ frees => h c frees⟩
  | _, .malloc _ => isTrue trivial
  | _, .write _ _ => isTrue trivial

theorem GivesBack.frees {s : Client} {T F : Finset Nat} (h : HeapInv s T F) {tag base pages : Nat}
    (back : GivesBack s.heap T F tag base pages) (live : 32 + tag ∈ s.live.map Prod.fst) :
    ∃ n : Int, regionSize n = 4096 * pages ∧ FreesChunk s (32 + tag) (base, n) := by
  obtain ⟨b₀, mem₀, _⟩ := List.mem_map.mp live
  have blocks := h.blocks (h.started mem₀)
  have header : ∀ t, t + 0x400000 < 2 ^ 32 → wsub (32 + t) sizeofTag = t := by
    intro t low
    simp only [wsub, wrap, sizeofTag]
    omega
  obtain ⟨low, high⟩ := back.header
  have below := (blocks.below _ back.chunk).1
  have word := blocks.word
  obtain ⟨n, out, size⟩ := back.chunk
  dsimp only at out size below
  refine ⟨n, size.symm, out, ?_, ?_, ?_⟩
  · rw [header tag (by omega), ← size]
    exact ⟨low, high⟩
  · intro b mem inside
    obtain ⟨u, memU, freeU, pointer, _, _⟩ := h.inUse b mem
    have fits := blocks.fits memU
    rw [pointer, header u (by omega), ← size] at inside
    obtain ⟨lowU, highU⟩ := inside
    dsimp only at lowU highU
    by_contra other
    have := back.alone u memU freeU (fun e => other (by rw [pointer, e]))
    omega
  · rw [← size]
    exact back.full

theorem HeapInv.keeps_mapped {s s' : Client} {T F : Finset Nat} (h : HeapInv s T F) {op : ClientOp}
    (served : Served s op) (borders : BordersNone s op) {first base : Nat}
    (mapped : HeapMapped first base s.heap.vmm) (step : clientStep s op = some s') :
    HeapMapped first base s'.heap.vmm := by
  have limits := h.ready.limits
  have blocks := h.ready.blocks
  have below := blocks.below
  have apart := blocks.tiled.chunks_apart
  rw [(initialize_rest s.heap).2.1] at below apart
  rcases h.step_vmm served step with same | ⟨_, pages, r, _, _, few, asked⟩ |
    ⟨tag, base', pages, r, rfl, live, back, asked⟩
  · rw [same]
    exact mapped
  · rcases few with few | refused
    · exact mapped.alloc limits few below asked
    · have inside := limits.below
      have top := limits.room.fits
      rw [liballocAlloc_eq _ _ (by omega), if_pos refused] at asked
      have same := congrArg Prod.fst (Option.some.inj asked)
      rw [← show _ = s'.heap.vmm from same]
      refine ⟨mapped.tables.congr rfl rfl, mapped.start, mapped.slot, mapped.stop, ?_, ?_⟩
      · rw [chunkSet_refused]
        exact mapped.aligned
      · rw [chunkSet_refused]
        exact mapped.present
  · obtain ⟨n, size, frees⟩ := back.frees h live
    refine mapped.free limits back.few below asked back.chunk apart ?_
    rintro d ⟨k, out, sizeD⟩ _
    obtain ⟨behind, before⟩ := borders (base', n) frees (d.1, k) out
    dsimp only at behind before
    rw [size] at behind
    rw [sizeD]
    exact ⟨behind, before⟩

theorem HeapMapped.chunksPresent {first base : Nat} {v : Vmm} (inv : HeapMapped first base v) :
    ChunksPresent v :=
  fun c out => inv.present (c.1, regionSize c.2) ⟨c.2, out, rfl⟩

section PagingInit

variable (s : Vmm) (room : BootRoom s) (fresh : s.calls = [])
  (safe : SignSafe s.pagingInit.heapEnd)
include room

theorem pagingInit_placed : Placed s.pagingInit := by
  obtain ⟨placed, _⟩ := pagingInit_pmm s room
  have tables := pagingInit_tables s room
  have physical := pagingInit_physical s room
  have fits := room.2
  have at_table : s.bootTable = pageUp s.pmm.placementaddr + 0x2000 := rfl
  have aligned : s.bootTable % 4096 = 0 := by
    unfold pageUp at at_table
    omega
  have points : (BitVec.ofNat 20 (s.bootTable >>> 12)).toNat <<< 12 = s.bootTable := by
    rw [BitVec.toNat_ofNat, Nat.shiftLeft_eq, Nat.shiftRight_eq_div_pow]
    omega
  have own : s.pagingInit.dir.tables 0 = s.bootTable := by rw [tables, Function.update_self]
  have other : ∀ i, i ≠ 0 → s.pagingInit.dir.tables i = 0 := by
    intro i more
    rw [tables, Function.update_of_ne more]
  refine ⟨?_, ?_, ?_⟩
  · intro i _
    by_cases first : i = 0
    · subst first
      rw [own, physical, Function.update_self, tableEntry]
      exact ⟨⟨fun _ => rfl, fun _ => by omega⟩, fun _ => points⟩
    · rw [other i first, physical, Function.update_of_ne first, PageDirEntry.zero]
      exact ⟨⟨fun h => absurd rfl h, fun h => absurd h Bool.false_ne_true⟩,
        fun h => absurd h Bool.false_ne_true⟩
  · intro i _ table
    by_cases first : i = 0
    · subst first
      omega
    · exact absurd (other i first) table
  · intro i j _ _ table same
    by_cases first : i = 0
    · by_cases second : j = 0
      · rw [first, second]
      · rw [same, other j second] at table
        exact absurd rfl table
    · exact absurd (other i first) table

include fresh safe

theorem pagingInit_mapped :
    HeapMapped (s.pagingInit.heapStart / 2 ^ 22) (s.bootTable + 0x2000) s.pagingInit := by
  obtain ⟨placed, _⟩ := pagingInit_pmm s room
  obtain ⟨start, cur, stop, calls⟩ := pagingInit_heap s room
  have fits := safe.fits
  have size := heapSize_eq
  have at_table : s.bootTable = pageUp s.pmm.placementaddr + 0x2000 := rfl
  have none : chunkSet s.pagingInit.calls = ∅ := by
    rw [calls, fresh]
    ext c
    simp [chunkSet, outstanding]
  refine ⟨⟨pagingInit_placed s room, by omega, by omega, ?_, by omega⟩, by omega, rfl, by omega, ?_, ?_⟩
  · unfold pageUp at at_table
    omega
  · rw [none]
    exact fun c hc => absurd hc (Set.notMem_empty c)
  · rw [none]
    exact fun c hc => absurd hc (Set.notMem_empty c)

end PagingInit

theorem paging_present {h : Heap} (below : h.vmm.TablesBelow) (present : ChunksPresent h.vmm) :
    ChunksPresent h.paging := by
  intro c out a inside
  obtain ⟨table, entry⟩ := present c out a inside
  refine ⟨table, ?_⟩
  rw [paging_eq, overlay_entryOf below a _ table]
  exact entry

/-- In every run from paging_init's heap that makes no page table, and in which no chunk
goes back next to another one, the pages of all chunks stay present. -/
theorem chunks_stay_present (s : Vmm) (h : Heap) (room : BootRoom s) (fresh : s.calls = [])
    (boot : h.vmm = s.pagingInit) (uninitialised : h.initialized = 0) (unlocked : h.lock = 0)
    (safe : SignSafe h.vmm.heapEnd) (ops : List ClientOp)
    (permitted : Permitted pagedStep
      (fun c op => (ClientAllowed c op ∧ BordersNone c op) ∧ NoNewTable c op) ⟨h, []⟩ ops) :
    (∃ c, run pagedStep ⟨h, []⟩ ops = some c) ∧
      Always pagedStep (fun c => ChunksPresent c.heap.paging) ⟨h, []⟩ ops := by
  have booted := pagingInit_paged room fresh boot uninitialised unlocked safe
  have spared := (paged_permitted booted.below).mp permitted
  have mapped := pagingInit_mapped s room fresh (boot ▸ safe)
  rw [← boot] at mapped
  obtain ⟨ran, always⟩ := heap_run (fun c op _ ok => ok.1.1.served)
    (fun c c' op T F inv mapped ok step => inv.keeps_mapped ok.1.1.served ok.1.2 mapped step)
    (booted_inv booted.toBooted) mapped ops spared
  have below := paged_below booted.below spared
  rw [paged_run booted.below spared, paged_always booted.below spared]
  exact ⟨ran, fun done before c reached =>
    paging_present (below done before c reached) (always done before c reached).2.chunksPresent⟩

/-- Five whole chunks are kept, and the sixth one takes a page of the seventh
along, which is live. -/
theorem sixth_chunk_unmaps_neighbour :
    Permitted pagedStep ClientAllowed ⟨bootHeap, []⟩ (wholeChunks 6) ∧
    ∃ c, run pagedStep ⟨bootHeap, []⟩ (wholeChunks 6) = some c ∧ (0x363420, 65400) ∈ c.live ∧
      (0x363400, 16) ∈ outstanding c.heap.vmm.calls ∧ ¬ ChunksPresent c.heap.paging := by
  have below := bootHeap_paged.below
  unfold bootHeap at below ⊢
  rw [bootAt3M_pages] at below ⊢
  have spared : Permitted clientStep (fun s op => ClientAllowed s op ∧ NoNewTable s op)
      ⟨{ heapAt3M with vmm := pagesAt3M }, []⟩ (wholeChunks 6) := by decide +kernel
  have reached : (run clientStep ⟨{ heapAt3M with vmm := pagesAt3M }, []⟩ (wholeChunks 6)).any (fun c =>
      (0x363420, 65400) ∈ c.live ∧ (0x363400, 16) ∈ outstanding c.heap.vmm.calls ∧
      ¬ PagePresent c.heap.paging 0x363400) = true := by decide +kernel
  obtain ⟨c, ran, found⟩ := Option.any_eq_true _ _ |>.mp reached
  obtain ⟨live, out, absent⟩ := of_decide_eq_true found
  refine ⟨((paged_permitted below).mpr spared).mono fun _ _ allowed => allowed.1, c,
    (paged_run below spared).trans ran, live, out, fun present => absent ?_⟩
  exact present _ out 0x363400 ⟨by decide, by decide⟩

/-- Up to the fifth chunk nothing goes back. -/
theorem five_chunks_stay_present :
    (∃ c, run pagedStep ⟨bootHeap, []⟩ (wholeChunks 5) = some c) ∧
      Always pagedStep (fun c => ChunksPresent c.heap.paging) ⟨bootHeap, []⟩ (wholeChunks 5) := by
  have booted := bootHeap_paged
  refine chunks_stay_present bootAt3M bootHeap (by decide) rfl rfl rfl rfl booted.room (wholeChunks 5)
    ((paged_permitted (s := ⟨bootHeap, []⟩) booted.below).mpr ?_)
  unfold bootHeap
  rw [bootAt3M_pages]
  decide +kernel

end RiseOS
