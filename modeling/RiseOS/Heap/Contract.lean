import RiseOS.Heap.Paged

/-! What malloc and free ask of the page hooks: each chunk goes back once, as it
came, and when nothing of it is in use or in a list. -/
namespace RiseOS
open Words Runs Links Tiling

def HookCall.returned (ptr : Nat) : HookCall → Bool
  | .alloc _ rez => rez = ptr
  | .refused _ | .free _ _ => false

inductive Listed (s : Heap) : Nat → Prop
  | head {i : Int} : 0 ≤ i ∧ i < maxExp → s.freePages i ≠ 0 → Listed s (s.freePages i)
  | next {t : Nat} : Listed s t → s.get .next t ≠ 0 → Listed s (s.get .next t)

/-- Exactly one call returned the chunk, for as many pages; it has not gone back
since; no listed tag and no other live block lies in it. -/
structure KeepsContract (s : Client) (ptr : Nat) (m : Heap) (tag pages : Nat) : Prop where
  returned : m.vmm.calls.filter (HookCall.returned tag) = [.alloc pages tag]
  kept : ∀ n, .free tag n ∉ m.vmm.calls
  listed : ∀ t, Listed m t → t ∉ bytes tag (4096 * pages)
  unused : ∀ b ∈ s.live, b.1 ≠ ptr → b.1 + b.2 ≤ tag ∨ tag + 4096 * pages + sizeofTag ≤ b.1

/-! ### The log of the hooks -/

/-- Every chunk that is out was handed out once, below `heap_cur`. -/
structure LogInv (v : Vmm) : Prop where
  recent : ∀ n r, .alloc n r ∈ v.calls → r < v.heapCur
  freed : ∀ p n, .free p n ∈ v.calls → p < v.heapCur
  once : ∀ c ∈ outstanding v.calls, v.calls.filter (HookCall.returned c.1) = [.alloc c.2 c.1] ∧
    (∀ n, .free c.1 n ∉ v.calls) ∧ 0 ≤ c.2 ∧ c.2 ≤ 1025

/-- A call that is not about an outstanding chunk leaves what the log says of it. -/
theorem LogInv.still {v : Vmm} (h : LogInv v) {c : Nat × Int} (out : c ∈ outstanding v.calls)
    {call : HookCall} (other : call.returned c.1 = false) (kept : ∀ n, .free c.1 n ≠ call) :
    (v.calls ++ [call]).filter (HookCall.returned c.1) = [.alloc c.2 c.1] ∧
      (∀ n, .free c.1 n ∉ v.calls ++ [call]) ∧ 0 ≤ c.2 ∧ c.2 ≤ 1025 := by
  obtain ⟨one, never, range⟩ := h.once c out
  refine ⟨?_, ?_, range⟩
  · rw [List.filter_append, one, List.filter_cons_of_neg (by rw [other]; exact Bool.false_ne_true)]
    rfl
  · intro n mem
    rcases List.mem_append.mp mem with old | new
    · exact never n old
    · exact kept n (List.mem_singleton.mp new)

/-- The address of an outstanding chunk lies below `heap_cur`. -/
theorem LogInv.below {v : Vmm} (h : LogInv v) {c : Nat × Int} (out : c ∈ outstanding v.calls) :
    c.1 < v.heapCur := by
  have mem : .alloc c.2 c.1 ∈ v.calls.filter (HookCall.returned c.1) := by
    rw [(h.once c out).1]
    exact List.mem_singleton_self _
  exact h.recent _ _ (List.mem_of_mem_filter mem)

theorem LogInv.refused {v v' : Vmm} (h : LogInv v) {pages : Int} (cur : v'.heapCur = v.heapCur)
    (calls : v'.calls = v.calls ++ [.refused pages]) : LogInv v' := by
  refine ⟨?_, ?_, ?_⟩ <;> rw [calls]
  · intro n r mem
    rw [cur]
    exact h.recent n r (by simpa using mem)
  · intro p n mem
    rw [cur]
    exact h.freed p n (by simpa using mem)
  · rw [outstanding_snoc]
    intro c out
    exact h.still out rfl (by simp)

theorem LogInv.alloc {v v' : Vmm} (h : LogInv v) {pages : Nat} (least : 1 ≤ pages) (few : pages ≤ 1025)
    (cur : v'.heapCur = v.heapCur + 4096 * pages)
    (calls : v'.calls = v.calls ++ [.alloc pages v.heapCur]) : LogInv v' := by
  have fresh : v.calls.filter (HookCall.returned v.heapCur) = [] := by
    rw [List.filter_eq_nil_iff]
    intro c mem hit
    cases c with
    | alloc n r =>
      have := h.recent n r mem
      simp only [HookCall.returned, decide_eq_true_eq] at hit
      omega
    | refused n => cases hit
    | free p n => cases hit
  have old : ∀ c ∈ outstanding v.calls, v'.calls.filter (HookCall.returned c.1) = [.alloc c.2 c.1] ∧
      (∀ n, .free c.1 n ∉ v'.calls) ∧ 0 ≤ c.2 ∧ c.2 ≤ 1025 := by
    intro c out
    have below := h.below out
    rw [calls]
    exact h.still out (decide_eq_false (by omega)) (by simp)
  refine ⟨?_, ?_, ?_⟩
  · intro n r mem
    rw [calls] at mem
    rcases List.mem_append.mp mem with old | new
    · have := h.recent n r old
      omega
    · cases List.mem_singleton.mp new
      omega
  · intro p n mem
    rw [calls] at mem
    have := h.freed p n (by simpa using mem)
    omega
  · intro c hc
    rw [calls, outstanding_snoc, HookCall.apply] at hc
    split at hc
    · exact old c hc
    · rcases List.mem_cons.mp hc with rfl | hc
      · refine ⟨?_, ?_, by dsimp only; omega, by dsimp only; omega⟩
        · rw [calls, List.filter_append, fresh, List.filter_cons_of_pos (by simp [HookCall.returned])]
          rfl
        · intro n mem
          rw [calls] at mem
          exact absurd (h.freed _ n (by simpa using mem)) (Nat.lt_irrefl _)
      · exact old c hc

theorem LogInv.free {v v' : Vmm} (h : LogInv v) {ptr : Nat} {pages : Int} (inside : ptr < v.heapCur)
    (cur : v'.heapCur = v.heapCur) (calls : v'.calls = v.calls ++ [.free ptr pages]) : LogInv v' := by
  refine ⟨?_, ?_, ?_⟩ <;> rw [calls]
  · intro n r mem
    rw [cur]
    exact h.recent n r (by simpa using mem)
  · intro p n mem
    rw [cur]
    rcases List.mem_append.mp mem with old | new
    · exact h.freed p n old
    · cases List.mem_singleton.mp new
      exact inside
  · rw [outstanding_snoc, HookCall.apply]
    intro c hc
    obtain ⟨out, other⟩ := List.mem_filter.mp hc
    refine h.still out rfl ?_
    intro n same
    cases same
    simp at other

theorem HeapInv.keeps_log {s s' : Client} {T F : Finset Nat} (h : HeapInv s T F) {op : ClientOp}
    (served : Served s op) (log : LogInv s.heap.vmm) (step : clientStep s op = some s') :
    LogInv s'.heap.vmm := by
  have limits := h.ready.limits
  rcases h.step_vmm served step with same | ⟨_, pages, r, _, least, few, asked⟩ |
    ⟨tag, base, pages, r, _, _, back, asked⟩
  · rw [same]
    exact log
  · obtain ⟨v, _, outcome⟩ := liballocAlloc_outcome s.heap.vmm limits few
    rcases outcome with ⟨call, cur, calls⟩ | ⟨few, call, cur, _, calls⟩
    · obtain ⟨rfl, _⟩ := Prod.mk.inj (Option.some.inj (call.symm.trans asked))
      exact log.refused cur calls
    · obtain ⟨rfl, _⟩ := Prod.mk.inj (Option.some.inj (call.symm.trans asked))
      exact log.alloc (by omega) few cur calls
  · have blocks := h.ready.blocks
    have below := blocks.below
    have word := blocks.word
    rw [(initialize_rest s.heap).2.1] at below word
    obtain ⟨fits, count, least, _, size⟩ := below _ back.chunk
    have few := back.few
    dsimp only at fits size
    have sum : wrap (base + regionSize pages) = base + 4096 * pages := by
      rw [regionSize_nat few]
      exact wrap_eq (by omega)
    obtain ⟨v, call, _, _, cur, calls⟩ :=
      liballocFree_returns s.heap.vmm base pages (by omega) (by rw [sum]; omega)
    obtain ⟨rfl, _⟩ := Prod.mk.inj (Option.some.inj (call.symm.trans asked))
    exact log.free (by omega) cur calls

theorem Blocks.listed_free {s : Heap} {T F : Finset Nat} {hand t : Nat} (h : Blocks s T F hand)
    (listed : Listed s t) : t ∈ F := by
  induction listed with
  | head valid node => exact (h.linked.head_mem _ valid node).1
  | next _ more mem => exact (h.linked.next_mem _ mem more).1

theorem HeapInv.handsBack {s : Client} {T F : Finset Nat} (h : HeapInv s T F)
    (log : LogInv s.heap.vmm) {ptr : Nat} (live : ptr ∈ s.live.map Prod.fst) {m : Heap}
    {tag pages : Nat} (back : HandsBack s.heap ptr m tag pages) : KeepsContract s ptr m tag pages := by
  obtain ⟨b, mem, rfl⟩ := List.mem_map.mp live
  have started := h.started mem
  obtain ⟨u, memU, freeU, pointer, _, _⟩ := h.inUse b mem
  obtain ⟨m', tag', T', F', melted, _, memT, freeT, inv, same, spares, _⟩ :=
    h.ready.melted started memU freeU
  have fits := (h.blocks started).fits memU
  have header : wsub b.1 sizeofTag = u := by
    simp only [wsub, wrap, sizeofTag]
    omega
  have reached := back.melted
  rw [header, melted] at reached
  obtain ⟨rfl, rfl⟩ := Prod.mk.inj (Option.some.inj reached)
  obtain ⟨count, least, size, gives⟩ := inv.wholeChunk memT back.complete back.full
  have asked : pages = count := by
    rw [back.asked, size, neededPages_whole least]
  subst asked
  have vmm : m'.vmm = s.heap.vmm := same.1
  obtain ⟨n, out, bytesOf⟩ := gives.chunk
  rw [vmm] at out
  dsimp only at out bytesOf
  obtain ⟨one, kept, low, high⟩ := log.once _ out
  have number : n = pages := by
    obtain ⟨k, rfl⟩ := Int.eq_ofNat_of_zero_le low
    rw [regionSize_nat (by omega)] at bytesOf
    omega
  subst number
  refine ⟨by rw [vmm]; exact one, by rw [vmm]; exact kept, ?_, ?_⟩
  · rintro t listed ⟨start, stop⟩
    have free := inv.listed_free listed
    have other : t ≠ tag' := fun e => freeT (e ▸ free)
    have := inv.tiled.apart t (inv.free_sub free) tag' memT other
    have := inv.long (inv.free_sub free)
    omega
  · intro c old other
    obtain ⟨w, memW, freeW, pointerW, _, realW⟩ := h.inUse c old
    obtain ⟨memW', freeW', otherW, _, realOf⟩ := spares w memW freeW (fun e => other (by omega))
    have := inv.tiled.apart w memW' tag' memT otherW
    dsimp only [sizeofTag]
    omega

/-- In every run that makes no page table and whose clears spare the heap, every chunk that
free gives back came from one call of liballoc_alloc for as many pages, has not gone back
since, and holds nothing listed and nothing live. -/
theorem chunk_contract (bitmapAt : Nat) (h : Heap) (start : h.BootedPaged) (ops : List ClientOp)
    (permitted : Permitted pagedStep (QuietAllowed bitmapAt) ⟨h, []⟩ ops) :
    Always pagedStep (fun s => ∀ ptr, ptr ∈ s.live.map Prod.fst → ∀ m tag pages,
      HandsBack s.heap ptr m tag pages → KeepsContract s ptr m tag pages) ⟨h, []⟩ ops := by
  have spared := (paged_permitted start.below).mp permitted
  have empty : LogInv h.vmm := by
    refine ⟨?_, ?_, ?_⟩ <;> rw [start.calls]
    · intro n r none
      cases none
    · intro p n none
      cases none
    · intro c none
      cases none
  obtain ⟨_, always⟩ := heap_run (fun s op _ allowed => ClientAllowed.served allowed.1.1)
    (fun s s' op T F inv log allowed step => inv.keeps_log allowed.1.1.served log step)
    (booted_inv start.toBooted) empty ops spared
  refine (paged_always start.below spared).mpr ?_
  intro done before s ran ptr live m tag pages back
  obtain ⟨⟨T, F, inv⟩, log⟩ := always done before s ran
  exact inv.handsBack log live back

/-- Two blocks in the first chunk, and five whole chunks behind it that are free. -/
def fiveKept : List ClientOp :=
  [.malloc 40000, .malloc 20000] ++ List.replicate 5 (.malloc 65400) ++
    (List.range 5).map (fun i => .free (0x313420 + 0x10000 * i))

/-- A request that crosses 4 MiB clears the headers behind the first one; the free of the
first block then gives away the chunk that holds the second. -/
theorem crossing_returns_live_chunk :
    Permitted pagedStep ClientAllowed ⟨bootHeap, []⟩ (fiveKept ++ [.malloc 642972]) ∧
    ∃ s m, run pagedStep ⟨bootHeap, []⟩ (fiveKept ++ [.malloc 642972]) = some s ∧
      0x303420 ∈ s.live.map Prod.fst ∧ (0x30d080, 20000) ∈ s.live ∧
      HandsBack s.heap 0x303420 m 0x303400 16 ∧ ¬ KeepsContract s 0x303420 m 0x303400 16 := by
  have below := bootHeap_paged.below
  unfold bootHeap at below ⊢
  rw [bootAt3M_pages] at below ⊢
  have spared : Permitted clientStep (fun s op => ClientAllowed s op ∧ NoNewTable s op)
      ⟨{ heapAt3M with vmm := pagesAt3M }, []⟩ fiveKept := by decide +kernel
  have reached : (run clientStep ⟨{ heapAt3M with vmm := pagesAt3M }, []⟩ fiveKept).any (fun c =>
      (pagedStep c (.malloc 642972)).any (fun s =>
        0x303420 ∈ s.live.map Prod.fst ∧ (0x30d080, 20000) ∈ s.live ∧ s.heap.lock = 0 ∧
        s.heap.get .magic 0x303400 = liballocMagic ∧
        (({ s.heap with lock := 1 } : Heap).melted 0x303400).any (fun r =>
          r.2 = 0x303400 ∧ r.1.complete 0x303400 ∧ r.1.completePages 15 = maxComplete ∧
          r.1.get .realSize 0x303400 = 40032))) = true := by decide +kernel
  obtain ⟨c, ran, later⟩ := Option.any_eq_true _ _ |>.mp reached
  obtain ⟨s, step, found⟩ := Option.any_eq_true _ _ |>.mp later
  obtain ⟨live, second, unlocked, magic, melts⟩ := of_decide_eq_true found
  obtain ⟨⟨m, tag⟩, melted, state⟩ := Option.any_eq_true _ _ |>.mp melts
  obtain ⟨rfl, complete, full, real⟩ := of_decide_eq_true state
  have start := (paged_run below spared).trans ran
  refine ⟨(permitted_snoc _ _ _ _ _).mpr ⟨?_, ?_⟩, s, m, ?_, live, second, ?_, ?_⟩
  · exact ((paged_permitted below).mpr spared).mono fun _ _ allowed => allowed.1
  · exact fun _ _ => (by decide : 642972 ≤ heapSize)
  · rw [run_append, start, Option.bind_some, run_cons, step]
    rfl
  · refine ⟨unlocked, magic, melted, complete, ?_, ?_⟩
    · rw [real]
      exact full
    · rw [real]
      decide
  · intro keeps
    have outside := keeps.unused (0x30d080, 20000) second (by decide)
    exact absurd outside (by decide)

theorem heapAt3M_contract :
    Always pagedStep (fun s => ∀ ptr, ptr ∈ s.live.map Prod.fst → ∀ m tag pages,
      HandsBack s.heap ptr m tag pages → KeepsContract s ptr m tag pages)
      ⟨heapAt3M, []⟩ (wholeChunks 6) :=
  chunk_contract bitmapAt3M heapAt3M heapAt3M_paged (wholeChunks 6)
    ((paged_permitted heapAt3M_paged.below).mpr (by decide +kernel))

end RiseOS
