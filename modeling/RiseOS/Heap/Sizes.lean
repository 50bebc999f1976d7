import RiseOS.Heap.Paged

/-! What malloc returns for every 32-bit size: a block that is big enough, and
one whenever the list it searches has a tag that fits. -/
namespace RiseOS
open Words Runs Links Tiling

/-- The block of a pointer has room for the size, and the bytes lie in one chunk. -/
structure Roomy (s : Heap) (b : Nat × Nat) : Prop where
  room : b.2 + sizeofTag ≤ s.get .realSize (wsub b.1 sizeofTag)
  inside : ∃ c ∈ outstanding s.vmm.calls,
    c.1 + sizeofTag ≤ b.1 ∧ b.1 + b.2 ≤ c.1 + regionSize c.2

/-- 32-bit sizes, NULL or a live pointer to free, and writes inside blocks. -/
def WordAllowed (s : Client) : ClientOp → Prop
  | .malloc size => size < 2 ^ 32
  | .free ptr => ptr = 0 ∨ ptr ∈ s.live.map Prod.fst
  | .write a _ => ∃ b ∈ s.live, b.1 ≤ a ∧ a < b.1 + b.2

/-- The size with a header fits a word, and the pages for it end below `heap_end`
or are refused; or it does not, they are refused, and the list of the size is empty. -/
def SizeFits (s : Client) : ClientOp → Prop
  | .malloc size =>
      32 + size < 2 ^ 32 ∧
        s.heap.vmm.heapCur + 4096 * neededPages (32 + size) < s.heap.vmm.heapEnd ∨
      (32 + size < 2 ^ 32 ∨ s.heap.initialize.freePages (bucket size) = 0) ∧
        s.heap.vmm.refuses (neededPages (wrap (32 + size)))
  | .free _ | .write _ _ => True

instance : ∀ s op, Decidable (WordAllowed s op)
  | _, .malloc size => inferInstanceAs (Decidable (size < 2 ^ 32))
  | s, .free ptr => inferInstanceAs (Decidable (ptr = 0 ∨ ptr ∈ s.live.map Prod.fst))
  | s, .write a _ => inferInstanceAs (Decidable (∃ b ∈ s.live, b.1 ≤ a ∧ a < b.1 + b.2))

instance : ∀ s op, Decidable (SizeFits s op)
  | s, .malloc size => inferInstanceAs (Decidable (
      32 + size < 2 ^ 32 ∧
        s.heap.vmm.heapCur + 4096 * neededPages (32 + size) < s.heap.vmm.heapEnd ∨
      (32 + size < 2 ^ 32 ∨ s.heap.initialize.freePages (bucket size) = 0) ∧
        s.heap.vmm.refuses (neededPages (wrap (32 + size)))))
  | _, .free _ => isTrue trivial
  | _, .write _ _ => isTrue trivial

def Window (v : Vmm) : Prop := v.heapEnd ≤ v.heapCur + heapSize

theorem SizeFits.served {s : Client} {op : ClientOp} (window : Window s.heap.vmm)
    (allowed : WordAllowed s op) (fits : SizeFits s op) : Served s op := by
  cases op with
  | malloc size =>
    have vmm := entered_vmm s.heap
    rcases fits with ⟨low, inside⟩ | ⟨low | empty, refused⟩
    · have size := heapSize_eq
      unfold Window at window
      exact .inl ⟨low, .inl (by omega)⟩
    · rw [wrap_eq low] at refused
      refine .inl ⟨low, .inr ?_⟩
      rw [vmm]
      exact refused
    · refine .inr ⟨?_, ?_⟩
      · have list : s.heap.entered.freePages (bucket size) = 0 := empty
        rw [list]
        exact search_null _ size (by decide)
      · rw [vmm]
        exact refused
  | free ptr => exact allowed
  | write a v => exact allowed

theorem HeapInv.keeps_window {s s' : Client} {T F : Finset Nat} (h : HeapInv s T F) {op : ClientOp}
    (served : Served s op) (window : Window s.heap.vmm) (step : clientStep s op = some s') :
    Window s'.heap.vmm := by
  have limits := h.ready.limits
  unfold Window at *
  rcases h.step_vmm served step with same | ⟨_, pages, r, _, _, few, asked⟩ |
    ⟨tag, base, pages, r, rfl, live, back, asked⟩
  · rw [same]
    exact window
  · obtain ⟨v, r', call, _, stop, grown, _⟩ := liballocAlloc_grows s.heap.vmm limits few
    obtain ⟨same, _⟩ := Prod.mk.inj (Option.some.inj (asked.symm.trans call))
    rw [same]
    omega
  · have blocks := h.blocks (h.started (List.mem_map.mp live).choose_spec.1)
    have inside := (blocks.below _ back.chunk).1
    obtain ⟨v, r', call, _, cur, stop, _⟩ := liballocFree_drops s.heap.vmm limits back.few inside
    obtain ⟨same, _⟩ := Prod.mk.inj (Option.some.inj (asked.symm.trans call))
    rw [same]
    omega

theorem HeapInv.roomy {s : Client} {T F : Finset Nat} (h : HeapInv s T F) {b : Nat × Nat}
    (live : b ∈ s.live) : Roomy s.heap b := by
  refine ⟨?_, h.owned.chunks b live⟩
  obtain ⟨tag, memT, _, pointer, _, real⟩ := h.inUse b live
  have fits := (h.blocks (h.started live)).fits memT
  have back : wsub b.1 sizeofTag = tag := by
    simp only [wsub, wrap, sizeofTag]
    omega
  rw [back]
  exact real

theorem Heap.Booted.window {h : Heap} (start : h.Booted) : Window h.vmm := by
  have cur := start.cur
  have stop := start.stop
  unfold Window
  omega

/-- A size that fits, in a step that makes no page table and whose clears spare the heap. -/
def FitAllowed (bitmapAt : Nat) (s : Client) (op : ClientOp) : Prop :=
  ((WordAllowed s op ∧ SizeFits s op) ∧ SparesBits bitmapAt s op) ∧ NoNewTable s op

instance (bitmapAt : Nat) (s : Client) (op : ClientOp) : Decidable (FitAllowed bitmapAt s op) :=
  inferInstanceAs (Decidable (_ ∧ _))

/-- In every run whose sizes fit, that makes no page table and whose clears spare the heap,
every block that malloc has returned has room for what was asked, within a chunk. -/
theorem blocks_are_roomy (bitmapAt : Nat) (h : Heap) (start : h.BootedPaged) (ops : List ClientOp)
    (permitted : Permitted pagedStep (FitAllowed bitmapAt) ⟨h, []⟩ ops) :
    (∃ s, run pagedStep ⟨h, []⟩ ops = some s) ∧
      Always pagedStep (fun s => ∀ b ∈ s.live, Roomy s.heap b) ⟨h, []⟩ ops := by
  have spared := (paged_permitted start.below).mp permitted
  obtain ⟨ran, always⟩ := heap_run
    (fun s op window ok => SizeFits.served window ok.1.1.1 ok.1.1.2)
    (fun s s' op T F inv window ok step =>
      inv.keeps_window (SizeFits.served window ok.1.1.1 ok.1.1.2) window step)
    (booted_inv start.toBooted) start.window ops spared
  rw [paged_run start.below spared, paged_always start.below spared]
  refine ⟨ran, ?_⟩
  intro done before s reached b live
  obtain ⟨⟨T, F, inv⟩, _⟩ := always done before s reached
  exact inv.roomy live

/-- The header and the size wrap to 16 bytes, and the block gets 16 pages. -/
theorem huge_size_gets_sixteen_pages : Permitted pagedStep WordAllowed ⟨heapAt3M, []⟩ [.malloc 0xFFFFFFF0] ∧
    ∃ s, run pagedStep ⟨heapAt3M, []⟩ [.malloc 0xFFFFFFF0] = some s ∧
      (0x303420, 0xFFFFFFF0) ∈ s.live ∧ ¬ Roomy s.heap (0x303420, 0xFFFFFFF0) := by
  refine ⟨by decide +kernel, ?_⟩
  have reached : (run pagedStep ⟨heapAt3M, []⟩ [.malloc 0xFFFFFFF0]).any (fun s =>
      (0x303420, 0xFFFFFFF0) ∈ s.live ∧ s.heap.get .realSize 0x303400 < 0xFFFFFFF0) = true := by
    decide +kernel
  obtain ⟨s, ran, found⟩ := Option.any_eq_true _ _ |>.mp reached
  obtain ⟨live, small⟩ := of_decide_eq_true found
  refine ⟨s, ran, live, fun roomy => ?_⟩
  have room := roomy.room
  have header : wsub 0x303420 sizeofTag = 0x303400 := by decide
  rw [header] at room
  omega

theorem refused_gigabyte_is_fine :
    (∃ s, run pagedStep ⟨heapAt3M, []⟩ [.malloc 100, .malloc 0x40000000, .free 0x303420] = some s) ∧
      Always pagedStep (fun s => ∀ b ∈ s.live, Roomy s.heap b) ⟨heapAt3M, []⟩
        [.malloc 100, .malloc 0x40000000, .free 0x303420] :=
  blocks_are_roomy bitmapAt3M heapAt3M heapAt3M_paged _
    ((paged_permitted heapAt3M_paged.below).mpr (by decide +kernel))

end RiseOS
