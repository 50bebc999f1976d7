import Mathlib.Data.Nat.Count
import RiseOS.Frames.Accounting

/-! Runs of kalloc_page_frame and kalloc_page_frame_at without frees.
The two index one bitmap differently: by frame number and by byte address. -/
namespace RiseOS
open Words Runs

inductive ReserveCall where
  | kalloc
  | kallocAt (addr : Nat)
  deriving DecidableEq

/-- `returned` is what the callers hold, whichever function it came from. -/
structure ReserveState where
  pmm : Pmm
  returned : List Nat

def reserveStep (s : ReserveState) : ReserveCall → Option ReserveState
  | .kalloc =>
      let (pmm, addr) := s.pmm.kallocPageFrame
      some ⟨pmm, if addr = noFrame then s.returned else addr :: s.returned⟩
  | .kallocAt addr =>
      let (pmm, rez) := s.pmm.kallocPageFrameAt addr
      some ⟨pmm, if rez = 0 then s.returned else rez :: s.returned⟩

/-- The two functions agree at this call: what is returned was not returned
before, and a reservation fails exactly when its frame is outstanding. -/
def Agrees (s : ReserveState) : ReserveCall → Prop
  | .kalloc => s.pmm.kallocPageFrame.2 ≠ noFrame → s.pmm.kallocPageFrame.2 ∉ s.returned
  | .kallocAt addr =>
      ((s.pmm.kallocPageFrameAt addr).2 = 0 ↔ blockAlign addr ∈ s.returned) ∧
      ((s.pmm.kallocPageFrameAt addr).2 ≠ 0 → (s.pmm.kallocPageFrameAt addr).2 ∉ s.returned)

instance : ∀ s c, Decidable (Agrees s c)
  | s, .kalloc => inferInstanceAs
      (Decidable (s.pmm.kallocPageFrame.2 ≠ noFrame → s.pmm.kallocPageFrame.2 ∉ s.returned))
  | s, .kallocAt addr => inferInstanceAs
      (Decidable (((s.pmm.kallocPageFrameAt addr).2 = 0 ↔ blockAlign addr ∈ s.returned) ∧
        ((s.pmm.kallocPageFrameAt addr).2 ≠ 0 →
          (s.pmm.kallocPageFrameAt addr).2 ∉ s.returned)))

def kallocs (calls : List ReserveCall) : Nat := calls.count .kalloc

def Reserved (calls : List ReserveCall) (a : Nat) : Prop :=
  ∃ addr, ReserveCall.kallocAt addr ∈ calls ∧ blockAlign addr = a

/-- The number of frames before frame `i` whose bit is clear. -/
def clearBelow (bitmap : Bitmap) (i : Nat) : Nat := Nat.count (fun j => isset bitmap j = false) i

/-- Frame `i` is clear, and `count` calls in frame order reach it. -/
def Reached (bitmap : Bitmap) (count i : Nat) : Prop :=
  i < frameLimit ∧ isset bitmap i = false ∧ clearBelow bitmap i < count

def Next (bitmap : Bitmap) (count i : Nat) : Prop :=
  i < frameLimit ∧ isset bitmap i = false ∧ clearBelow bitmap i = count

/-- The address `a` is that of a frame that `count` calls reach. -/
def Issued (bitmap : Bitmap) (placementaddr count a : Nat) : Prop :=
  ∃ i, Reached bitmap count i ∧ frameAddress placementaddr i = a

/-! ### Counting clear frames -/

theorem reached_succ (bitmap : Bitmap) (count i : Nat) :
    Reached bitmap (count + 1) i ↔ Reached bitmap count i ∨ Next bitmap count i := by
  unfold Reached Next
  rw [Nat.lt_succ_iff_lt_or_eq]
  tauto

theorem reached_mono {bitmap : Bitmap} {m n i : Nat} (le : m ≤ n) (reached : Reached bitmap m i) :
    Reached bitmap n i :=
  ⟨reached.1, reached.2.1, Nat.lt_of_lt_of_le reached.2.2 le⟩

theorem issued_mono {bitmap : Bitmap} {placementaddr m n a : Nat} (le : m ≤ n)
    (issued : Issued bitmap placementaddr m a) : Issued bitmap placementaddr n a := by
  obtain ⟨i, reached, address⟩ := issued
  exact ⟨i, reached_mono le reached, address⟩

theorem next_unique {bitmap : Bitmap} {count i j : Nat} (hi : Next bitmap count i)
    (hj : Next bitmap count j) : i = j :=
  Nat.count_injective hi.2.1 hj.2.1 (hi.2.2.trans hj.2.2.symm)

theorem clearBelow_le {bitmap : Bitmap} {count i : Nat}
    (before : ∀ j, j < i → isset bitmap j = false → clearBelow bitmap j < count) :
    clearBelow bitmap i ≤ count := by
  induction i with
  | zero => exact Nat.zero_le count
  | succ i ih =>
    unfold clearBelow
    rw [Nat.count_succ]
    split
    · rename_i clear
      exact before i (Nat.lt_succ_self i) clear
    · exact ih fun j hj => before j (Nat.lt_succ_of_lt hj)

/-! ### The state after a run -/

/-- The bits of the frames and the bits at far raw addresses are moved by one
function each; both are determined by the calls. -/
structure ReserveInv (bitmap : Bitmap) (placementaddr : Nat) (done : List ReserveCall)
    (t : ReserveState) : Prop where
  place : t.pmm.placementaddr = placementaddr
  low : ∀ i, i < frameLimit → (isset t.pmm.bitmap i = true ↔
    isset bitmap i = true ∨ Reached bitmap (kallocs done) i)
  high : ∀ a, frameLimit ≤ a → (isset t.pmm.bitmap a = true ↔
    isset bitmap a = true ∨ Reserved done a)
  returned : ∀ a, a ∈ t.returned ↔
    Issued bitmap placementaddr (kallocs done) a ∨ (Reserved done a ∧ isset bitmap a = false)

section Step

variable {bitmap : Bitmap} {placementaddr : Nat} {done : List ReserveCall} {t : ReserveState}

theorem kallocs_kalloc (calls : List ReserveCall) :
    kallocs (calls ++ [.kalloc]) = kallocs calls + 1 := by
  simp [kallocs]

theorem kallocs_kallocAt (calls : List ReserveCall) (addr : Nat) :
    kallocs (calls ++ [.kallocAt addr]) = kallocs calls := by
  simp [kallocs]

theorem reserved_kalloc (calls : List ReserveCall) (a : Nat) :
    Reserved (calls ++ [.kalloc]) a ↔ Reserved calls a := by
  simp [Reserved]

theorem reserved_kallocAt (calls : List ReserveCall) (addr a : Nat) :
    Reserved (calls ++ [.kallocAt addr]) a ↔ Reserved calls a ∨ blockAlign addr = a := by
  simp [Reserved, or_and_right, exists_or]

/-- The lowest clear bit is that of the frame next in order. -/
theorem kalloc_outcome (inv : ReserveInv bitmap placementaddr done t) :
    (∃ i, Next bitmap (kallocs done) i ∧ t.pmm.kallocPageFrame =
      ({ t.pmm with bitmap := setbit t.pmm.bitmap i }, frameAddress placementaddr i)) ∨
    ((∀ i, ¬ Next bitmap (kallocs done) i) ∧ t.pmm.kallocPageFrame =
      (t.pmm.qemuPrintf "Failed to allocate page frame: out of mem!\n", noFrame)) := by
  rcases kallocPageFrame_cases t.pmm with ⟨i, hi, clear, before, _, result⟩ | ⟨full, _, result⟩
  · left
    have unset : ¬ (isset bitmap i = true ∨ Reached bitmap (kallocs done) i) := by
      rw [← inv.low i hi, clear]
      exact Bool.false_ne_true
    rw [not_or] at unset
    have clear0 : isset bitmap i = false := Bool.eq_false_iff.mpr unset.1
    have above : kallocs done ≤ clearBelow bitmap i := by
      by_contra less
      exact unset.2 ⟨hi, clear0, by omega⟩
    have upto : clearBelow bitmap i ≤ kallocs done := by
      refine clearBelow_le fun j hj clearJ => ?_
      rcases (inv.low j (by omega)).mp (before j hj) with set | reached
      · rw [clearJ] at set
        cases set
      · exact reached.2.2
    exact ⟨i, ⟨hi, clear0, Nat.le_antisymm upto above⟩, inv.place ▸ result⟩
  · right
    refine ⟨?_, result⟩
    rintro i ⟨hi, clear, count⟩
    rcases (inv.low i hi).mp (full i hi) with set | reached
    · rw [clear] at set
      cases set
    · exact absurd reached.2.2 (by omega)

theorem kallocAt_outcome (s : Pmm) (addr : Nat) :
    (isset s.bitmap (blockAlign addr) = false ∧ s.kallocPageFrameAt addr =
      ({ s with bitmap := setbit s.bitmap (blockAlign addr) }, blockAlign addr)) ∨
    (isset s.bitmap (blockAlign addr) = true ∧ s.kallocPageFrameAt addr =
      (s.qemuPrintf "Cannot Allocate Page Frame\n", 0)) := by
  cases bit : isset s.bitmap (blockAlign addr) with
  | false => exact .inl ⟨rfl, by simp [Pmm.kallocPageFrameAt, Pmm.setPageReserved, bit]⟩
  | true => exact .inr ⟨rfl, by simp [Pmm.kallocPageFrameAt, bit]⟩

theorem reserveStep_returns (t : ReserveState) (c : ReserveCall) :
    ∃ t', reserveStep t c = some t' := by
  cases c <;> exact ⟨_, rfl⟩

theorem kalloc_keeps_reserve {t' : ReserveState} (inv : ReserveInv bitmap placementaddr done t)
    (stepped : reserveStep t .kalloc = some t') :
    ReserveInv bitmap placementaddr (done ++ [.kalloc]) t' := by
  rcases kalloc_outcome inv with ⟨i, next, result⟩ | ⟨none, result⟩
  · have moved : ∀ j, Reached bitmap (kallocs done + 1) j ↔ Reached bitmap (kallocs done) j ∨ j = i := by
      intro j
      rw [reached_succ]
      exact or_congr_right ⟨fun h => next_unique h next, fun h => h ▸ next⟩
    simp only [reserveStep, result, frameAddress_ne_noFrame, if_false, Option.some.injEq] at stepped
    subst stepped
    refine ⟨inv.place, fun j hj => ?_, fun a far => ?_, fun a => ?_⟩
    · rw [kallocs_kalloc, moved, isset_setbit, Bool.or_eq_true, decide_eq_true_eq, inv.low j hj]
      tauto
    · have other : a ≠ i := by
        rintro rfl
        exact absurd next.1 (by omega)
      rw [reserved_kalloc, isset_setbit, decide_eq_false other, Bool.false_or, inv.high a far]
    · have issued : Issued bitmap placementaddr (kallocs done + 1) a ↔
          Issued bitmap placementaddr (kallocs done) a ∨ frameAddress placementaddr i = a := by
        simp [Issued, moved, or_and_right, exists_or]
      rw [kallocs_kalloc, reserved_kalloc, issued, List.mem_cons, inv.returned a]
      tauto
  · have same : ∀ j, Reached bitmap (kallocs done + 1) j ↔ Reached bitmap (kallocs done) j := by
      intro j
      rw [reached_succ]
      exact or_iff_left (none j)
    simp only [reserveStep, result, if_true, Option.some.injEq] at stepped
    subst stepped
    refine ⟨inv.place, fun j hj => ?_, fun a far => ?_, fun a => ?_⟩
    · rw [kallocs_kalloc, same]
      exact inv.low j hj
    · rw [reserved_kalloc]
      exact inv.high a far
    · rw [kallocs_kalloc, reserved_kalloc]
      simp only [Issued, same]
      exact inv.returned a

theorem kallocAt_keeps_reserve {t' : ReserveState} (inv : ReserveInv bitmap placementaddr done t)
    (addr : Nat) (far : frameLimit ≤ blockAlign addr)
    (stepped : reserveStep t (.kallocAt addr) = some t') :
    ReserveInv bitmap placementaddr (done ++ [.kallocAt addr]) t' := by
  have positive : blockAlign addr ≠ 0 := by
    unfold frameLimit at far
    omega
  rcases kallocAt_outcome t.pmm addr with ⟨clear, result⟩ | ⟨set, result⟩
  · have unset : ¬ (isset bitmap (blockAlign addr) = true ∨ Reserved done (blockAlign addr)) := by
      rw [← inv.high _ far, clear]
      exact Bool.false_ne_true
    rw [not_or] at unset
    simp only [reserveStep, result, positive, if_false, Option.some.injEq] at stepped
    subst stepped
    refine ⟨inv.place, fun j hj => ?_, fun a farA => ?_, fun a => ?_⟩
    · have other : j ≠ blockAlign addr := by omega
      rw [kallocs_kallocAt, isset_setbit, decide_eq_false other, Bool.false_or, inv.low j hj]
    · rw [reserved_kallocAt, isset_setbit, Bool.or_eq_true, decide_eq_true_eq, inv.high a farA]
      tauto
    · rw [kallocs_kallocAt, reserved_kallocAt, List.mem_cons, inv.returned a]
      constructor
      · rintro (rfl | issued | ⟨reserved, clear0⟩)
        · exact .inr ⟨.inr rfl, Bool.eq_false_iff.mpr unset.1⟩
        · exact .inl issued
        · exact .inr ⟨.inl reserved, clear0⟩
      · rintro (issued | ⟨reserved | rfl, clear0⟩)
        · exact .inr (.inl issued)
        · exact .inr (.inr ⟨reserved, clear0⟩)
        · exact .inl rfl
  · have before : isset bitmap (blockAlign addr) = true ∨ Reserved done (blockAlign addr) :=
      (inv.high _ far).mp set
    simp only [reserveStep, result, if_true, Option.some.injEq] at stepped
    subst stepped
    refine ⟨inv.place, fun j hj => ?_, fun a farA => ?_, fun a => ?_⟩
    · rw [kallocs_kallocAt]
      exact inv.low j hj
    · rw [reserved_kallocAt]
      refine (inv.high a farA).trans ⟨fun h => ?_, ?_⟩
      · exact h.imp_right .inl
      · rintro (set0 | reserved | rfl)
        · exact .inl set0
        · exact .inr reserved
        · exact before
    · rw [kallocs_kallocAt, reserved_kallocAt]
      refine (inv.returned a).trans (or_congr_right ⟨fun h => ⟨.inl h.1, h.2⟩, ?_⟩)
      rintro ⟨reserved | rfl, clear0⟩
      · exact ⟨reserved, clear0⟩
      · rcases before with set0 | reserved
        · rw [clear0] at set0
          cases set0
        · exact ⟨reserved, clear0⟩

end Step

/-- Every run of far reservations and allocations, and the state it ends in. -/
theorem reserve_run (s : ReserveState) (start : s.returned = []) (calls : List ReserveCall)
    (far : ∀ addr, ReserveCall.kallocAt addr ∈ calls → frameLimit ≤ blockAlign addr) :
    ∃ t, run reserveStep s calls = some t ∧
      ReserveInv s.pmm.bitmap s.pmm.placementaddr calls t := by
  induction calls using List.reverseRecOn with
  | nil =>
    refine ⟨s, rfl, rfl, ?_, ?_, ?_⟩
    · simp [Reached, kallocs]
    · simp [Reserved]
    · simp [start, Issued, Reached, Reserved, kallocs]
  | append_singleton done c ih =>
    obtain ⟨t, ran, inv⟩ := ih fun addr member => far addr (List.mem_append_left _ member)
    obtain ⟨t', stepped⟩ := reserveStep_returns t c
    refine ⟨t', by simp [run_append, ran, stepped], ?_⟩
    cases c with
    | kalloc => exact kalloc_keeps_reserve inv stepped
    | kallocAt addr => exact kallocAt_keeps_reserve inv addr (far addr (by simp)) stepped

/-! ### Agreement at one call -/

section Agreement

variable {bitmap : Bitmap} {placementaddr : Nat} {done : List ReserveCall} {t : ReserveState}

theorem next_not_issued {count i : Nat} (next : Next bitmap count i) :
    ¬ Issued bitmap placementaddr count (frameAddress placementaddr i) := by
  rintro ⟨j, reached, same⟩
  have index : j = i := frameAddress_inj reached.1 next.1 same
  rw [index] at reached
  exact absurd reached.2.2 (by have := next.2.2; omega)

theorem agrees_kalloc_iff (inv : ReserveInv bitmap placementaddr done t) :
    Agrees t .kalloc ↔ ∀ i, Next bitmap (kallocs done) i →
      Reserved done (frameAddress placementaddr i) →
      isset bitmap (frameAddress placementaddr i) = true := by
  rcases kalloc_outcome inv with ⟨i, next, result⟩ | ⟨none, result⟩
  · have fresh : frameAddress placementaddr i ∉ t.returned ↔
        (Reserved done (frameAddress placementaddr i) →
          isset bitmap (frameAddress placementaddr i) = true) := by
      rw [inv.returned, or_iff_right (next_not_issued next), not_and, Bool.not_eq_false]
    simp only [Agrees, result, ne_eq, frameAddress_ne_noFrame, not_false_iff, true_implies, fresh]
    constructor
    · intro kept j nextJ
      rw [next_unique nextJ next]
      exact kept
    · intro all
      exact all i next
  · simp only [Agrees, result, ne_eq, not_true_eq_false, false_implies, true_iff]
    intro i next
    exact absurd next (none i)

theorem agrees_kallocAt_iff (inv : ReserveInv bitmap placementaddr done t) (addr : Nat)
    (far : frameLimit ≤ blockAlign addr) :
    Agrees t (.kallocAt addr) ↔
      if isset bitmap (blockAlign addr) = true
        then Issued bitmap placementaddr (kallocs done) (blockAlign addr)
        else Issued bitmap placementaddr (kallocs done) (blockAlign addr) →
          Reserved done (blockAlign addr) := by
  have positive : blockAlign addr ≠ 0 := by
    unfold frameLimit at far
    omega
  have bit := inv.high _ far
  rcases kallocAt_outcome t.pmm addr with ⟨clear, result⟩ | ⟨set, result⟩
  · rw [clear] at bit
    have unset := not_or.mp fun h => Bool.false_ne_true (bit.mpr h)
    rw [if_neg unset.1]
    simp only [Agrees, result, positive, ne_eq, not_false_iff, true_implies, false_iff,
      inv.returned, unset.2, false_and, or_false, and_self, imp_false]
  · have before := bit.mp set
    simp only [Agrees, result, ne_eq, not_true_eq_false, false_implies, and_true, true_iff,
      inv.returned]
    split
    · rename_i set0
      simp only [set0, Bool.true_eq_false, and_false, or_false]
    · rename_i clear0
      have reserved : Reserved done (blockAlign addr) := before.resolve_left clear0
      simp only [reserved, Bool.not_eq_true _ ▸ clear0, and_self, or_true, implies_true]

end Agreement

/-- Allocation and reservation meet in no frame: none that was clear at the start
is both reserved and reached by the run's allocations, and one whose raw bit was
already set is reserved only behind its allocation. -/
def KeptApart (bitmap : Bitmap) (placementaddr : Nat) (calls : List ReserveCall) : Prop :=
  ∀ done addr rest, calls = done ++ .kallocAt addr :: rest →
    if isset bitmap (blockAlign addr) = true
      then Issued bitmap placementaddr (kallocs done) (blockAlign addr)
      else ¬ Issued bitmap placementaddr (kallocs calls) (blockAlign addr)

theorem kallocs_append (as bs : List ReserveCall) : kallocs (as ++ bs) = kallocs as + kallocs bs :=
  List.count_append

/-- The calls before the allocation with number `n`. -/
theorem split_kalloc {calls : List ReserveCall} {n : Nat} (below : n < kallocs calls) :
    ∃ done rest, calls = done ++ .kalloc :: rest ∧ kallocs done = n := by
  induction calls generalizing n with
  | nil => simp [kallocs] at below
  | cons c calls ih =>
    cases c with
    | kalloc =>
      cases n with
      | zero => exact ⟨[], calls, rfl, rfl⟩
      | succ n =>
        obtain ⟨done, rest, split, count⟩ := ih (n := n) (by simpa [kallocs] using below)
        exact ⟨.kalloc :: done, rest, by rw [split, List.cons_append], by simpa [kallocs] using count⟩
    | kallocAt addr =>
      obtain ⟨done, rest, split, count⟩ := ih (n := n) (by simpa [kallocs] using below)
      exact ⟨.kallocAt addr :: done, rest, by rw [split, List.cons_append],
        by simpa [kallocs] using count⟩

theorem first_reserved {calls : List ReserveCall} {a : Nat} (reserved : Reserved calls a) :
    ∃ before addr rest, calls = before ++ .kallocAt addr :: rest ∧ blockAlign addr = a ∧
      ¬ Reserved before a := by
  induction calls with
  | nil =>
    obtain ⟨addr, member, _⟩ := reserved
    cases member
  | cons c calls ih =>
    by_cases here : ∃ addr, c = .kallocAt addr ∧ blockAlign addr = a
    · obtain ⟨addr, rfl, target⟩ := here
      exact ⟨[], addr, calls, rfl, target, by simp [Reserved]⟩
    · obtain ⟨addr, member, target⟩ := reserved
      have later : ReserveCall.kallocAt addr ∈ calls := by
        rcases List.mem_cons.mp member with rfl | later
        · exact absurd ⟨addr, rfl, target⟩ here
        · exact later
      obtain ⟨before, addr', rest, split, target', none⟩ := ih ⟨addr, later, target⟩
      refine ⟨c :: before, addr', rest, by rw [split, List.cons_append], target', ?_⟩
      rintro ⟨addr'', member'', target''⟩
      rcases List.mem_cons.mp member'' with rfl | member''
      · exact here ⟨addr'', rfl, target''⟩
      · exact none ⟨addr'', member'', target''⟩

/-- An allocation after which no reservation of its frame is made, and before
which none was, meets no reservation. -/
theorem not_issued_of_steps {bitmap : Bitmap} {placementaddr a : Nat} {calls : List ReserveCall}
    (reserving : ∀ done addr rest, calls = done ++ .kallocAt addr :: rest → blockAlign addr = a →
      Issued bitmap placementaddr (kallocs done) a → Reserved done a)
    (allocating : ∀ done rest, calls = done ++ .kalloc :: rest → ∀ i, Next bitmap (kallocs done) i →
      frameAddress placementaddr i = a → ¬ Reserved done a)
    (reserved : Reserved calls a) : ¬ Issued bitmap placementaddr (kallocs calls) a := by
  rintro ⟨i, ⟨hi, clear, below⟩, address⟩
  obtain ⟨done, rest, split, count⟩ := split_kalloc below
  have unreserved := allocating done rest split i ⟨hi, clear, count.symm⟩ address
  have later : Reserved rest a := by
    obtain ⟨addr, member, target⟩ := reserved
    rw [split, List.mem_append, List.mem_cons] at member
    rcases member with member | member | member
    · exact absurd ⟨addr, member, target⟩ unreserved
    · cases member
    · exact ⟨addr, member, target⟩
  obtain ⟨before, addr, after, splitRest, target, none⟩ := first_reserved later
  have issued : Issued bitmap placementaddr (kallocs (done ++ .kalloc :: before)) a := by
    refine ⟨i, ⟨hi, clear, ?_⟩, address⟩
    rw [kallocs_append, count, kallocs, List.count_cons_self]
    omega
  obtain ⟨addr', member, target'⟩ := reserving (done ++ .kalloc :: before) addr after
    (by rw [split, splitRest, List.append_assoc, List.cons_append]) target issued
  rw [List.mem_append, List.mem_cons] at member
  rcases member with member | member | member
  · exact unreserved ⟨addr', member, target'⟩
  · cases member
  · exact none ⟨addr', member, target'⟩

section Agreeing

variable (s : ReserveState) (calls : List ReserveCall) (start : s.returned = [])
  (far : ∀ addr, ReserveCall.kallocAt addr ∈ calls → frameLimit ≤ blockAlign addr)
include start far

theorem reserve_reached {done rest : List ReserveCall} {c : ReserveCall}
    (split : calls = done ++ c :: rest) : ∃ t, run reserveStep s done = some t ∧
      ReserveInv s.pmm.bitmap s.pmm.placementaddr done t :=
  reserve_run s start done fun addr member => far addr (split ▸ List.mem_append_left _ member)

/-- What agreement says of a reservation, in terms of the calls before it. -/
theorem reserved_of_agrees (agrees : Permitted reserveStep Agrees s calls)
    {done rest : List ReserveCall} {addr : Nat} (split : calls = done ++ .kallocAt addr :: rest) :
    if isset s.pmm.bitmap (blockAlign addr) = true
      then Issued s.pmm.bitmap s.pmm.placementaddr (kallocs done) (blockAlign addr)
      else Issued s.pmm.bitmap s.pmm.placementaddr (kallocs done) (blockAlign addr) →
        Reserved done (blockAlign addr) := by
  obtain ⟨t, ran, inv⟩ := reserve_reached s calls start far split
  have step := (permitted_iff_split reserveStep Agrees s calls).mp agrees done _ rest split t ran
  exact (agrees_kallocAt_iff inv addr (far addr (by simp [split]))).mp step

theorem unreserved_of_agrees (agrees : Permitted reserveStep Agrees s calls)
    {done rest : List ReserveCall} (split : calls = done ++ .kalloc :: rest) {i : Nat}
    (next : Next s.pmm.bitmap (kallocs done) i)
    (clear : ¬ isset s.pmm.bitmap (frameAddress s.pmm.placementaddr i) = true) :
    ¬ Reserved done (frameAddress s.pmm.placementaddr i) := by
  obtain ⟨t, ran, inv⟩ := reserve_reached s calls start far split
  have step := (permitted_iff_split reserveStep Agrees s calls).mp agrees done _ rest split t ran
  exact fun reserved => clear ((agrees_kalloc_iff inv).mp step i next reserved)

theorem apart_of_agrees (agrees : Permitted reserveStep Agrees s calls) :
    KeptApart s.pmm.bitmap s.pmm.placementaddr calls := by
  intro done addr rest split
  have here := reserved_of_agrees s calls start far agrees split
  by_cases set : isset s.pmm.bitmap (blockAlign addr) = true
  · rw [if_pos set] at here ⊢
    exact here
  · rw [if_neg set]
    refine not_issued_of_steps ?_ ?_ ⟨addr, by simp [split], rfl⟩
    · intro done' addr' rest' split' target
      have step := reserved_of_agrees s calls start far agrees split'
      rwa [target, if_neg set] at step
    · rintro done' rest' split' i next address
      rw [← address] at set ⊢
      exact unreserved_of_agrees s calls start far agrees split' next set

theorem agrees_of_apart (apart : KeptApart s.pmm.bitmap s.pmm.placementaddr calls) :
    Permitted reserveStep Agrees s calls := by
  rw [permitted_iff_split]
  intro done c rest split t ran
  obtain ⟨t', ran', inv⟩ := reserve_reached s calls start far split
  obtain rfl : t' = t := Option.some.inj (ran'.symm.trans ran)
  have total : kallocs calls = kallocs done + kallocs (c :: rest) := by
    rw [split, kallocs_append]
  cases c with
  | kallocAt addr =>
    rw [agrees_kallocAt_iff inv addr (far addr (by simp [split]))]
    have here := apart done addr rest split
    by_cases set : isset s.pmm.bitmap (blockAlign addr) = true
    · rw [if_pos set] at here ⊢
      exact here
    · rw [if_neg set] at here ⊢
      exact fun issued => absurd (issued_mono (by omega) issued) here
  | kalloc =>
    rw [agrees_kalloc_iff inv]
    rintro i next ⟨addr, member, target⟩
    obtain ⟨before, between, splitDone⟩ := List.append_of_mem member
    have here := apart before addr (between ++ .kalloc :: rest)
      (by rw [split, splitDone, List.append_assoc, List.cons_append])
    rw [target] at here
    by_contra clear
    rw [if_neg clear] at here
    refine here ⟨i, ⟨next.1, next.2.1, ?_⟩, rfl⟩
    rw [total, kallocs, kallocs, List.count_cons_self, next.2.2, kallocs]
    omega

end Agreeing

/-- Reserving and allocating agree in a run exactly when they meet in no frame. -/
theorem reserve_agrees_iff_apart (s : ReserveState) (calls : List ReserveCall)
    (start : s.returned = [])
    (far : ∀ addr, ReserveCall.kallocAt addr ∈ calls → frameLimit ≤ blockAlign addr) :
    Permitted reserveStep Agrees s calls ↔
      KeptApart s.pmm.bitmap s.pmm.placementaddr calls :=
  ⟨apart_of_agrees s calls start far, agrees_of_apart s calls start far⟩

/-- The frames of a kernel linked at 1 MiB are all far, unless they wrap. -/
theorem frame_range_far {placementaddr addr : Nat} (linked : 0x100000 ≤ placementaddr)
    (room : placementaddr + 4096 * (frameLimit + 2) ≤ 2 ^ 32) (above : placementaddr ≤ addr)
    (within : addr ≤ placementaddr + 4096 * frameLimit) : frameLimit ≤ blockAlign addr := by
  unfold frameLimit at *
  rw [blockAlign_eq (by omega)]
  unfold wrap
  omega

def emptyReserve : ReserveState := ⟨⟨0x200000, fun _ => 0#32, []⟩, []⟩

theorem distant_reservation_apart :
    KeptApart emptyReserve.pmm.bitmap 0x200000 [.kalloc, .kallocAt 0x300000, .kalloc] := by
  refine (reserve_agrees_iff_apart emptyReserve [.kalloc, .kallocAt 0x300000, .kalloc] rfl ?_).mp
    (by decide +kernel)
  simp only [List.mem_cons, List.not_mem_nil, or_false, reduceCtorEq, false_or,
    ReserveCall.kallocAt.injEq, forall_eq]
  decide

/-- The second frame is outstanding when it is reserved again. -/
theorem allocated_frame_reserved_again :
    ¬ Permitted reserveStep Agrees emptyReserve [.kalloc, .kalloc, .kallocAt 0x201000] ∧
    (run reserveStep emptyReserve [.kalloc, .kalloc, .kallocAt 0x201000]).map
      ReserveState.returned = some [0x202000, 0x202000, 0x201000] := by
  decide +kernel

end RiseOS
