import RiseOS.Heap.Whole

/-! calloc: a block from malloc whose bytes are cleared. As long as malloc finds
one, callers that use calloc reach no state that malloc and writes do not reach. -/
namespace RiseOS
open Words Runs

inductive CallocOp where
  | call (op : ClientOp)
  | calloc (nobj size : Nat)

def callocStep (s : Client) : CallocOp → Option Client
  | .call op => pagedStep s op
  | .calloc nobj size => (s.heap.calloc nobj size .aliased).map fun r =>
      ⟨r.1, if r.2 = 0 then s.live else (r.2, wrap (nobj * size)) :: s.live⟩

/-- calloc takes a product up to HEAP_SIZE for which malloc has a block, and makes no page
table either. -/
def CallocAllowed (bitmapAt : Nat) (s : Client) : CallocOp → Prop
  | .call op => QuietAllowed bitmapAt s op
  | .calloc nobj size => QuietAllowed bitmapAt s (.malloc (wrap (nobj * size))) ∧
      (s.heap.malloc (wrap (nobj * size)) .aliased).all (fun r => r.2 ≠ 0) = true

instance (bitmapAt : Nat) : ∀ s op, Decidable (CallocAllowed bitmapAt s op)
  | s, .call op => inferInstanceAs (Decidable (QuietAllowed bitmapAt s op))
  | s, .calloc nobj size => inferInstanceAs (Decidable (
      QuietAllowed bitmapAt s (.malloc (wrap (nobj * size))) ∧
        (s.heap.malloc (wrap (nobj * size)) .aliased).all (fun r => r.2 ≠ 0) = true))

/-- `count` zeros from `p[i]` on. -/
def clears (p count i : Nat) : List ClientOp :=
  (List.range' i count).map fun k => .write (p + k) 0#8

theorem clears_run {bitmapAt : Nat} {s : Client} {p n : Nat} (live : (p, n) ∈ s.live)
    (word : p + n < 2 ^ 32) (count i : Nat) (inside : i + count ≤ n) :
    Permitted clientStep (QuietAllowed bitmapAt) s (clears p count i) ∧
      run clientStep s (clears p count i) =
        some ⟨{ s.heap with mem := fillBytes p 0#8 count i s.heap.mem }, s.live⟩ := by
  induction count generalizing s i with
  | zero => exact ⟨trivial, rfl⟩
  | succ count ih =>
    obtain ⟨permitted, ran⟩ := ih (s := ⟨s.heap.write (p + i) 0#8, s.live⟩) live (i + 1) (by omega)
    have here : QuietAllowed bitmapAt s (.write (p + i) 0#8) :=
      ⟨⟨⟨(p, n), live, by dsimp only; omega⟩, trivial⟩, trivial⟩
    have at_cell : wrap (p + i) = p + i := wrap_eq (by omega)
    rw [clears, List.range'_succ, List.map_cons]
    refine ⟨⟨here, fun s' step => ?_⟩, ?_⟩
    · obtain rfl := Option.some.inj step
      exact permitted
    · rw [fillBytes, at_cell]
      exact ran

section Step

variable {s s' : Client} {T F : Finset Nat} (h : TidyInv s T F) (below : s.heap.vmm.TablesBelow)
  {bitmapAt nobj size : Nat} (allowed : CallocAllowed bitmapAt s (.calloc nobj size))
include h below allowed

/-- calloc is malloc of the product, and a write to each byte of the block. -/
theorem TidyInv.calloc : ∃ heap p, s.heap.malloc (wrap (nobj * size)) = some (heap, p) ∧ p ≠ 0 ∧
    p + wrap (nobj * size) < 2 ^ 32 ∧
    s.heap.calloc nobj size .aliased =
      some ({ heap with mem := fillBytes p 0#8 (wrap (nobj * size)) 0 heap.mem }, p) := by
  obtain ⟨⟨⟨allowed, _⟩, quiet⟩, found⟩ := allowed
  have small : wrap (nobj * size) ≤ heapSize := allowed
  have window := heapSize_eq
  have served : Served s (.malloc (wrap (nobj * size))) := ClientAllowed.served small
  obtain ⟨m, step, _⟩ := h.inv.malloc served
  obtain ⟨⟨heap, p⟩, call, same⟩ := Option.map_eq_some_iff.mp step
  rw [malloc_aliased below quiet, call] at found
  have node : p ≠ 0 := by simpa using found
  obtain ⟨T', F', inv, _⟩ := h.malloc served (by omega) step
  have live : (p, wrap (nobj * size)) ∈ m.live := by
    rw [← same]
    dsimp only
    rw [if_neg node]
    exact List.mem_cons_self
  refine ⟨heap, p, call, node, inv.word live, ?_⟩
  rw [calloc_aliased below quiet]
  unfold Heap.calloc liballocMemset
  dsimp only
  rw [call]
  rfl

theorem TidyInv.calloc_run (step : callocStep s (.calloc nobj size) = some s') :
    ∃ ops, Permitted clientStep (QuietAllowed bitmapAt) s ops ∧ run clientStep s ops = some s' := by
  obtain ⟨heap, p, call, node, word, called⟩ := h.calloc below allowed
  rw [callocStep, called, Option.map_some] at step
  dsimp only at step
  rw [if_neg node] at step
  have first : clientStep s (.malloc (wrap (nobj * size))) =
      some ⟨heap, (p, wrap (nobj * size)) :: s.live⟩ := by
    rw [clientStep, call, Option.map_some]
    dsimp only
    rw [if_neg node]
  obtain ⟨permitted, ran⟩ := clears_run
    (s := ⟨heap, (p, wrap (nobj * size)) :: s.live⟩) (n := wrap (nobj * size)) List.mem_cons_self word
    (wrap (nobj * size)) 0 (by omega)
  refine ⟨.malloc (wrap (nobj * size)) :: clears p (wrap (nobj * size)) 0, ⟨allowed.1, ?_⟩, ?_⟩
  · intro m here
    rw [first] at here
    exact Option.some.inj here ▸ permitted
  · rw [run_cons, first, Option.bind_some, ran]
    exact step

end Step

section Steps

variable {s s' : Client} {T F : Finset Nat} (h : TidyInv s T F) (below : s.heap.vmm.TablesBelow)
  {bitmapAt : Nat} {op : CallocOp} (allowed : CallocAllowed bitmapAt s op)
include h below allowed

theorem TidyInv.callocStep_returns : ∃ s', callocStep s op = some s' := by
  cases op with
  | call op =>
    obtain ⟨s', step, _⟩ := h.inv.step op (ClientAllowed.served allowed.1.1)
    exact ⟨s', (pagedStep_eq below allowed.2).trans step⟩
  | calloc nobj size =>
    obtain ⟨heap, p, _, _, _, called⟩ := h.calloc below allowed
    rw [callocStep, called]
    exact ⟨_, rfl⟩

theorem TidyInv.expand (step : callocStep s op = some s') :
    ∃ ops, Permitted clientStep (QuietAllowed bitmapAt) s ops ∧ run clientStep s ops = some s' := by
  cases op with
  | call op =>
    refine ⟨[op], ⟨allowed, fun _ _ => trivial⟩, ?_⟩
    have same := pagedStep_eq below allowed.2
    rw [run_cons, same.symm.trans step]
    rfl
  | calloc nobj size => exact h.calloc_run below allowed step

end Steps

/-- The block is cleared, and no byte of another block has changed. -/
structure Cleared (s : Client) (n : Nat) (heap : Heap) (p : Nat) : Prop where
  zero : ∀ i, i < n → heap.mem (p + i) = 0#8
  others : ∀ b ∈ s.live, ∀ a, b.1 ≤ a ∧ a < b.1 + b.2 → heap.mem a = s.heap.mem a

theorem TidyInv.cleared {s : Client} {T F : Finset Nat} (h : TidyInv s T F)
    (below : s.heap.vmm.TablesBelow) {bitmapAt nobj size : Nat}
    (allowed : CallocAllowed bitmapAt s (.calloc nobj size)) {heap : Heap} {p : Nat}
    (call : s.heap.calloc nobj size .aliased = some (heap, p)) :
    Cleared s (wrap (nobj * size)) heap p := by
  obtain ⟨m, q, asked, node, word, called⟩ := h.calloc below allowed
  obtain ⟨rfl, rfl⟩ := Prod.mk.inj (Option.some.inj (called.symm.trans call))
  have filled : ∀ a, fillBytes q 0#8 (wrap (nobj * size)) 0 m.mem a =
      if q + 0 ≤ a ∧ a < q + 0 + wrap (nobj * size) then 0#8 else m.mem a :=
    fillBytes_apply (by omega) m.mem
  have window := heapSize_eq
  have small : wrap (nobj * size) ≤ heapSize := allowed.1.1.1
  have first : clientStep s (.malloc (wrap (nobj * size))) =
      some ⟨m, (q, wrap (nobj * size)) :: s.live⟩ := by
    rw [clientStep, asked, Option.map_some]
    dsimp only
    rw [if_neg node]
  have served : Served s (.malloc (wrap (nobj * size))) := ClientAllowed.served small
  obtain ⟨T', F', inv, frame⟩ := h.malloc served (by omega) first
  refine ⟨fun i inside => ?_, fun b live a inside => ?_⟩
  · dsimp only
    rw [filled, if_pos (by omega)]
  · have still : b ∈ (q, wrap (nobj * size)) :: s.live := List.mem_cons_of_mem _ live
    have apart := (List.pairwise_cons.mp inv.inv.owned.payloads).1 b live
    dsimp only at apart ⊢
    rw [filled, if_neg (by omega)]
    exact inv.framed still frame inside

/-- Runs with calloc that make no page table and whose clears spare the heap return, and
reach states that runs of malloc, free and writes reach; each block that calloc returns is
cleared. -/
theorem calloc_runs (bitmapAt : Nat) (h : Heap) (start : h.BootedPaged) (ops : List CallocOp)
    (permitted : Permitted callocStep (CallocAllowed bitmapAt) ⟨h, []⟩ ops) :
    (∃ s, run callocStep ⟨h, []⟩ ops = some s) ∧
    Always callocStep (fun s =>
      (∃ plain, Permitted pagedStep (QuietAllowed bitmapAt) ⟨h, []⟩ plain ∧
        run pagedStep ⟨h, []⟩ plain = some s) ∧
      ∀ nobj size, CallocAllowed bitmapAt s (.calloc nobj size) → ∀ heap p,
        s.heap.calloc nobj size .aliased = some (heap, p) → Cleared s (wrap (nobj * size)) heap p)
      ⟨h, []⟩ ops := by
  let Kept : Client → Prop := fun s => (∃ T F, TidyInv s T F) ∧ s.heap.vmm.TablesBelow
  have initial : Kept ⟨h, []⟩ := ⟨⟨∅, ∅, booted_tidy start.toBooted⟩, start.below⟩
  have small : ∀ s op s', Kept s → QuietAllowed bitmapAt s op → clientStep s op = some s' →
      Kept s' :=
    fun s op s' ⟨⟨T, F, inv⟩, below⟩ allowed step =>
      ⟨inv.step allowed.1.1 step, below.step allowed.2 step⟩
  have expand : ∀ s op s', Kept s → CallocAllowed bitmapAt s op → callocStep s op = some s' →
      ∃ plain, Permitted clientStep (QuietAllowed bitmapAt) s plain ∧
        run clientStep s plain = some s' :=
    fun s op s' ⟨⟨T, F, inv⟩, below⟩ allowed step => inv.expand below allowed step
  have large : ∀ s op s', Kept s → CallocAllowed bitmapAt s op → callocStep s op = some s' →
      Kept s' := by
    intro s op s' kept allowed step
    obtain ⟨plain, permitted, ran⟩ := expand s op s' kept allowed step
    exact always_invariant clientStep (QuietAllowed bitmapAt) _ small s plain kept permitted plain
      List.prefix_rfl s' ran
  have returns : ∀ s op, Kept s → CallocAllowed bitmapAt s op →
      ∃ s', callocStep s op = some s' ∧ Kept s' := by
    rintro s op ⟨⟨T, F, inv⟩, below⟩ allowed
    obtain ⟨s', step⟩ := inv.callocStep_returns below allowed
    exact ⟨s', step, large s op s' ⟨⟨T, F, inv⟩, below⟩ allowed step⟩
  refine ⟨?_, ?_⟩
  · obtain ⟨s, ran, _⟩ := run_invariant callocStep (CallocAllowed bitmapAt) _ returns ⟨h, []⟩ ops
      initial permitted
    exact ⟨s, ran⟩
  · intro done before s reached
    obtain ⟨⟨T, F, inv⟩, below⟩ := always_invariant callocStep (CallocAllowed bitmapAt) _ large
      ⟨h, []⟩ ops initial permitted done before s reached
    obtain ⟨rest, rfl⟩ := before
    have first := ((permitted_append _ _ _ done rest).mp permitted).1
    obtain ⟨plain, spared, ran⟩ := run_expands clientStep (QuietAllowed bitmapAt) callocStep
      (CallocAllowed bitmapAt) _ small expand ⟨h, []⟩ done initial first reached
    refine ⟨⟨plain, (paged_permitted start.below).mpr spared, ?_⟩, ?_⟩
    · exact (paged_run start.below spared).trans ran
    · exact fun nobj size allowed heap p call => inv.cleared below allowed call

theorem calloc_after_free : (∃ s, run callocStep ⟨heapAt3M, []⟩
      [.call (.malloc 100), .call (.write 0x303420 7), .call (.free 0x303420), .calloc 5 20] = some s) ∧
    Always callocStep (fun s =>
      (∃ plain, Permitted pagedStep (QuietAllowed bitmapAt3M) ⟨heapAt3M, []⟩ plain ∧
        run pagedStep ⟨heapAt3M, []⟩ plain = some s) ∧
      ∀ nobj size, CallocAllowed bitmapAt3M s (.calloc nobj size) → ∀ heap p,
        s.heap.calloc nobj size .aliased = some (heap, p) → Cleared s (wrap (nobj * size)) heap p)
      ⟨heapAt3M, []⟩
      [.call (.malloc 100), .call (.write 0x303420 7), .call (.free 0x303420), .calloc 5 20] :=
  calloc_runs bitmapAt3M heapAt3M heapAt3M_paged _ (by decide +kernel)

end RiseOS
