import RiseOS.Heap.Strays
import RiseOS.Paging.Growth
import RiseOS.Paging.Identity
import RiseOS.Paging.Overlay

/-! malloc and free over page hooks that store into the heap. As long as no call needs a
new page table, they do what they do over hooks that spare it. -/
namespace RiseOS
open Words Runs Links Tiling

/-- malloc(size) finds a tag in its list, or the pages it asks for have their page tables. -/
def Heap.NeedsNoTable (s : Heap) (size : Nat) : Prop :=
  s.entered.search size loopFuel (s.entered.freePages (bucket size)) = some 0 →
    s.vmm.NeedsNoTable (neededPages (wrap (sizeofTag + size)))

instance (s : Heap) (size : Nat) : Decidable (s.NeedsNoTable size) :=
  inferInstanceAs (Decidable (_ → _))

section Calls

variable {s : Heap} (below : s.vmm.TablesBelow)
include below

theorem malloc_aliased {size : Nat} (quiet : s.NeedsNoTable size) :
    s.malloc size .aliased = s.malloc size := by
  by_cases unlocked : s.lock = 0
  · rw [malloc_entered unlocked, malloc_entered unlocked size .aliased]
    refine Option.bind_congr fun found searched => ?_
    refine congrArg (Option.map _) ?_
    unfold Heap.obtainTag
    split
    · rename_i null
      rw [null] at searched
      have kept : s.entered.vmm.TablesBelow := (entered_vmm s).symm ▸ below
      have tabled : s.entered.vmm.NeedsNoTable (neededPages (wrap (sizeofTag + size))) :=
        (entered_vmm s).symm ▸ quiet searched
      unfold Heap.allocateNewTag
      dsimp only
      rw [aliased_alloc kept _ tabled]
    · rfl
  · simp only [Heap.malloc, Heap.liballocLock, if_neg unlocked, Option.bind_none]

theorem putBack_aliased (tag : Nat) : s.putBack tag .aliased = s.putBack tag := by
  unfold Heap.putBack
  dsimp only
  rw [aliased_free below]

theorem free_aliased (ptr : Nat) : s.free ptr .aliased = s.free ptr := by
  unfold Heap.free
  split
  · rfl
  · refine Option.bind_congr fun l locked => ?_
    obtain ⟨_, rfl⟩ := liballocLock_some locked
    dsimp only
    split
    · rfl
    · refine Option.bind_congr fun r melted => Option.bind_congr fun m absorbed => ?_
      have vmm : m.vmm = ({ s with lock := 1 } : Heap).vmm :=
        (absorbLoop_vmm absorbed).trans (meltLoop_vmm melted)
      exact putBack_aliased (vmm ▸ below) r.2

theorem Vmm.TablesBelow.malloc {s' : Heap} {size p : Nat} (quiet : s.NeedsNoTable size)
    (call : s.malloc size = some (s', p)) :
    s'.vmm.TablesBelow ∧ s'.vmm.heapStart = s.vmm.heapStart := by
  rcases malloc_vmm call with same | ⟨searched, r, asked⟩
  · exact ⟨same ▸ below, congrArg _ same⟩
  · exact below.liballocAlloc _ (quiet searched) asked

theorem Vmm.TablesBelow.free {s' : Heap} {ptr : Nat} (call : s.free ptr = some s') :
    s'.vmm.TablesBelow ∧ s'.vmm.heapStart = s.vmm.heapStart := by
  rcases free_vmm call with same | ⟨tag, pages, r, asked⟩
  · exact ⟨same ▸ below, congrArg _ same⟩
  · exact below.liballocFree _ tag asked

theorem calloc_aliased {nobj size : Nat} (quiet : s.NeedsNoTable (wrap (nobj * size))) :
    s.calloc nobj size .aliased = s.calloc nobj size := by
  unfold Heap.calloc
  dsimp only
  rw [malloc_aliased below quiet]

/-- realloc asks for pages in its malloc only. -/
theorem realloc_aliased {p size : Nat} (quiet : size ≠ 0 → s.NeedsNoTable size) :
    s.realloc p size .aliased = s.realloc p size := by
  unfold Heap.realloc
  by_cases none : size = 0
  · rw [if_pos none, if_pos none, free_aliased below]
  · rw [if_neg none, if_neg none, malloc_aliased below (quiet none)]
    split
    · rfl
    · refine Option.bind_congr fun l locked => ?_
      obtain ⟨free, rfl⟩ := liballocLock_some locked
      have back : ({ s with lock := 1 } : Heap).liballocUnlock = s := by
        obtain ⟨_, _, _, _, _, _⟩ := s
        cases free
        rfl
      dsimp only
      rw [back, malloc_aliased below (quiet none)]
      refine Option.bind_congr fun r made => ?_
      have after : r.1.vmm.TablesBelow := (below.malloc (quiet none) made).1
      have kept : ∀ m, ({ r.1 with mem := m } : Heap).vmm.TablesBelow := fun _ => after
      exact congrArg (Option.map _) (free_aliased (kept _) p)

end Calls

/-! ### Runs -/

/-- A call of malloc or free over hooks that store into the heap, or a caller's write. -/
def pagedStep (s : Client) : ClientOp → Option Client
  | .malloc size => (s.heap.malloc size .aliased).map fun r =>
      ⟨r.1, if r.2 = 0 then s.live else (r.2, size) :: s.live⟩
  | .free ptr => (s.heap.free ptr .aliased).map fun heap =>
      ⟨heap, s.live.filter (fun b => b.1 ≠ ptr)⟩
  | .write a v => some ⟨s.heap.write a v, s.live⟩

/-- The step makes no page table. -/
def NoNewTable (s : Client) : ClientOp → Prop
  | .malloc size => s.heap.NeedsNoTable size
  | .free _ | .write _ _ => True

instance : ∀ s op, Decidable (NoNewTable s op)
  | s, .malloc size => inferInstanceAs (Decidable (s.heap.NeedsNoTable size))
  | _, .free _ => isTrue trivial
  | _, .write _ _ => isTrue trivial

/-- The step clears no set bit of the heap, with the bitmap at `bitmapAt`. -/
def SparesBits (bitmapAt : Nat) (s : Client) : ClientOp → Prop
  | .free ptr => s.heap.FreeSpares bitmapAt ptr
  | .malloc _ | .write _ _ => True

instance (bitmapAt : Nat) : ∀ s op, Decidable (SparesBits bitmapAt s op)
  | s, .free ptr => inferInstanceAs (Decidable (s.heap.FreeSpares bitmapAt ptr))
  | _, .malloc _ | _, .write _ _ => isTrue trivial

/-- What ClientAllowed allows, in a step that makes no page table and whose clears spare
the heap. -/
def QuietAllowed (bitmapAt : Nat) (s : Client) (op : ClientOp) : Prop :=
  (ClientAllowed s op ∧ SparesBits bitmapAt s op) ∧ NoNewTable s op

instance (bitmapAt : Nat) (s : Client) (op : ClientOp) : Decidable (QuietAllowed bitmapAt s op) :=
  inferInstanceAs (Decidable (_ ∧ _))

/-- `Booted`, and the page tables lie below the heap, as that of paging_init does. -/
structure Heap.BootedPaged (s : Heap) : Prop extends Heap.Booted s where
  below : s.vmm.TablesBelow

theorem pagedStep_eq {s : Client} {op : ClientOp} (below : s.heap.vmm.TablesBelow)
    (quiet : NoNewTable s op) : pagedStep s op = clientStep s op := by
  cases op with
  | malloc size =>
    unfold pagedStep clientStep
    dsimp only
    rw [malloc_aliased below quiet]
  | free ptr =>
    unfold pagedStep clientStep
    dsimp only
    rw [free_aliased below]
  | write a v => rfl

/-- A step that makes no page table leaves the tables below the heap, and heap_start. -/
theorem Vmm.TablesBelow.kept {s s' : Client} {op : ClientOp} (below : s.heap.vmm.TablesBelow)
    (quiet : NoNewTable s op) (step : clientStep s op = some s') :
    s'.heap.vmm.TablesBelow ∧ s'.heap.vmm.heapStart = s.heap.vmm.heapStart := by
  cases op with
  | malloc size =>
    obtain ⟨r, call, rfl⟩ := Option.map_eq_some_iff.mp step
    exact below.malloc quiet call
  | free ptr =>
    obtain ⟨heap, call, rfl⟩ := Option.map_eq_some_iff.mp step
    exact below.free call
  | write a v =>
    obtain rfl := Option.some.inj step
    exact ⟨below, rfl⟩

theorem Vmm.TablesBelow.step {s s' : Client} {op : ClientOp} (below : s.heap.vmm.TablesBelow)
    (quiet : NoNewTable s op) (step : clientStep s op = some s') : s'.heap.vmm.TablesBelow :=
  (below.kept quiet step).1

section Runs

variable {ok : Client → ClientOp → Prop} {s : Client} (below : s.heap.vmm.TablesBelow)
  {ops : List ClientOp}
include below

/-- The run is the same over both kinds of hooks, as long as no call needs a page table. -/
theorem paged_permitted : Permitted pagedStep (fun s op => ok s op ∧ NoNewTable s op) s ops ↔
    Permitted clientStep (fun s op => ok s op ∧ NoNewTable s op) s ops :=
  permitted_congr (fun s => s.heap.vmm.TablesBelow)
    (fun _ _ below allowed => pagedStep_eq below allowed.2)
    (fun _ _ _ below allowed step => below.step allowed.2 step) below ops

variable (permitted : Permitted clientStep (fun s op => ok s op ∧ NoNewTable s op) s ops)
include permitted

/-- Where the heap begins 512 KiB behind the bitmap, all clears spare it. -/
theorem far_permitted {bitmapAt : Nat} (far : bitmapAt + 0x80000 ≤ s.heap.vmm.heapStart) :
    Permitted clientStep
      (fun s op => (ok s op ∧ SparesBits bitmapAt s op) ∧ NoNewTable s op) s ops := by
  induction ops generalizing s with
  | nil => trivial
  | cons op rest ih =>
    obtain ⟨⟨allowed, quiet⟩, later⟩ := permitted
    have spares : SparesBits bitmapAt s op := by
      cases op with
      | free ptr => exact far_spares far below.start ptr
      | _ => trivial
    refine ⟨⟨⟨allowed, spares⟩, quiet⟩, fun s' step => ?_⟩
    obtain ⟨kept, same⟩ := below.kept quiet step
    refine ih kept (later s' step) ?_
    rw [same]
    exact far

theorem paged_run : run pagedStep s ops = run clientStep s ops :=
  run_congr (fun s => s.heap.vmm.TablesBelow)
    (fun _ _ below allowed => pagedStep_eq below allowed.2)
    (fun _ _ _ below allowed step => below.step allowed.2 step) below permitted

theorem paged_always {P : Client → Prop} :
    Always pagedStep P s ops ↔ Always clientStep P s ops :=
  always_congr (fun s => s.heap.vmm.TablesBelow)
    (fun _ _ below allowed => pagedStep_eq below allowed.2)
    (fun _ _ _ below allowed step => below.step allowed.2 step) below permitted

theorem paged_below : Always clientStep (fun s => s.heap.vmm.TablesBelow) s ops :=
  always_invariant clientStep _ (fun s => s.heap.vmm.TablesBelow)
    (fun _ _ _ below allowed step => below.step allowed.2 step) s ops below permitted

end Runs

/-! ### paging_init's heap -/

theorem OneTable.tablesBelow {table : Nat} {s : Vmm} (one : OneTable table s) (cur : s.heapCur < 2 ^ 32) :
    s.TablesBelow := by
  refine ⟨one.word, cur, fun i table' => ?_⟩
  by_cases first : i = 0
  · rw [first, one.first]
    exact one.below
  · exact absurd (one.others i first) table'

/-- The heap is booted when paging_init has run and malloc has not. -/
theorem pagingInit_paged {s : Vmm} {h : Heap} (room : BootRoom s) (fresh : s.calls = [])
    (boot : h.vmm = s.pagingInit) (uninitialised : h.initialized = 0) (unlocked : h.lock = 0)
    (safe : SignSafe h.vmm.heapEnd) : h.BootedPaged := by
  obtain ⟨start, cur, stop, calls⟩ := pagingInit_heap s room
  have one := pagingInit_oneTable s room
  have word := one.word
  have fits := safe.fits
  have size := heapSize_eq
  rw [boot] at fits
  refine ⟨⟨uninitialised, unlocked, ?_, ?_, ?_, safe⟩, ?_⟩
  · rw [boot, calls, fresh]
  · rw [boot, cur, start]
  · rw [boot]
    omega
  · rw [boot]
    exact one.tablesBelow (by omega)

/-- The heap of a kernel that ends at 3 MiB, before the first malloc. -/
def bootHeap : Heap := { heapAt3M with vmm := bootAt3M.pagingInit }

/-- Where the bitmap of that kernel lies. -/
def bitmapAt3M : Nat := 0x2db400

/-- pmm_init puts the kernel's end at 3 MiB. -/
example : initPlacement 0 bitmapAt3M = bootAt3M.pmm.placementaddr := by decide

def pagesAt3M : Vmm where
  pmm := ⟨0x303400, fun _ => 0#32, bootAt3M.pagingInit.pmm.serial⟩
  kernelDir := bootAt3M.pagingInit.kernelDir
  dir := ⟨Function.update (fun _ => 0) 0 0x302000,
    Function.update (fun _ => PageDirEntry.zero) 0 (tableEntry PageDirEntry.zero 0x302000)⟩
  entries := fun a => if 0x302000 ≤ a ∧ a < 0x302000 + 4 * 0x303400 ∧ (a - 0x302000) % 4 = 0
    then identityEntry Page.zero ((a - 0x302000) / 4) else Page.zero
  heapStart := 0x303400
  heapEnd := 0x703400
  heapCur := 0x303400
  trace := bootAt3M.pagingInit.trace
  calls := []

theorem bootAt3M_pages : bootAt3M.pagingInit = pagesAt3M := by
  unfold pagesAt3M
  have room : BootRoom bootAt3M := by decide
  obtain ⟨placed, bitmap⟩ := pagingInit_pmm bootAt3M room
  obtain ⟨start, cur, stop, calls⟩ := pagingInit_heap bootAt3M room
  have tables := pagingInit_tables bootAt3M room
  have physical := pagingInit_physical bootAt3M room
  have entries := pagingInit_entries bootAt3M room (by decide) (fun _ => rfl)
  have table : bootAt3M.bootTable = 0x302000 := by decide
  rw [table] at placed start cur stop tables physical entries
  generalize bootAt3M.pagingInit = v at *
  obtain ⟨⟨_, _, _⟩, _, ⟨_, _⟩, _, _, _, _, _, _⟩ := v
  cases placed
  cases bitmap
  cases start
  cases cur
  cases stop
  cases calls
  cases tables
  cases physical
  cases entries
  rfl

theorem bootHeap_paged : bootHeap.BootedPaged := by
  have below := bootAt3M_ready.1.tablesBelow (by rw [bootAt3M_ready.2.2.2.1]; decide)
  unfold bootHeap
  rw [bootAt3M_pages] at below ⊢
  exact ⟨⟨rfl, rfl, rfl, rfl, by decide, .inl (by decide)⟩, below⟩

theorem heapAt3M_paged : heapAt3M.BootedPaged := by
  refine ⟨⟨rfl, rfl, rfl, rfl, by decide, .inl (by decide)⟩, by decide, by decide, fun i table => ?_⟩
  change (if i = 0 then 0x302000 else 0) ≠ 0 at table
  by_cases first : i = 0
  · rw [first]
    decide
  · exact absurd (if_neg first) table

end RiseOS
