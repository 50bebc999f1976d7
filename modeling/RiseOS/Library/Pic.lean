import Mathlib.Data.Fin.Tuple.Basic
import Mathlib.Data.Finset.Max
import Mathlib.Data.Fintype.Basic

/-! The 8259A interrupt controller in its fully nested mode, and the pair of them in a
PC, the second one on line 2 of the first. A word for which the chip has another mode
than these gives `none`. Line 0 has the highest priority. -/
namespace Pic

/-- Which of the four initialisation words comes next. -/
inductive Stage where
  | ready | icw2 | icw3 | icw4
  deriving DecidableEq

structure Chip where
  irr : Finset (Fin 8)
  isr : Finset (Fin 8)
  imr : Finset (Fin 8)
  base : Nat
  wiring : Nat
  single : Bool
  stage : Stage

def bits (data : Nat) : Finset (Fin 8) := Finset.univ.filter fun i => data.testBit i

namespace Chip

/-- The request can interrupt: it is not masked, and everything in service is of a
lower priority. -/
def Eligible (c : Chip) (i : Fin 8) : Prop :=
  c.stage = .ready ∧ i ∈ c.irr ∧ i ∉ c.imr ∧ ∀ j ∈ c.isr, i < j

instance (c : Chip) (i : Fin 8) : Decidable (c.Eligible i) := inferInstanceAs (Decidable (_ ∧ _))

def next (c : Chip) : Option (Fin 8) := Fin.find? fun i => decide (c.Eligible i)

def request (c : Chip) (i : Fin 8) : Chip := { c with irr := insert i c.irr }

def withdraw (c : Chip) (i : Fin 8) : Chip := { c with irr := c.irr.erase i }

/-- The processor takes the request. -/
def take (c : Chip) (i : Fin 8) : Chip := { c with irr := c.irr.erase i, isr := insert i c.isr }

/-- The nonspecific end of interrupt: of the highest priority in service. -/
def endOfInterrupt (c : Chip) : Chip :=
  match Fin.find? fun i => decide (i ∈ c.isr) with
  | some i => { c with isr := c.isr.erase i }
  | none => c

/-- A write with A0 = 0. The first initialisation word asks for all four here, and for
edges rather than levels. -/
def command (c : Chip) (data : Nat) : Option Chip :=
  if data.testBit 4 then
    if data.testBit 0 ∧ ¬data.testBit 3 then
      some { c with irr := ∅, isr := ∅, imr := ∅, single := data.testBit 1, stage := .icw2 }
    else none
  else if data = 0x20 then some c.endOfInterrupt
  else none

/-- A write with A0 = 1; the fourth word asks for vectors, and an explicit end. -/
def data (c : Chip) (data : Nat) : Option Chip :=
  match c.stage with
  | .icw2 => some { c with base := data / 8 * 8, stage := if c.single then .icw4 else .icw3 }
  | .icw3 => some { c with wiring := data, stage := .icw4 }
  | .icw4 => if data = 0x01 then some { c with stage := .ready } else none
  | .ready => some { c with imr := bits data }

theorem next_eq_some {c : Chip} {i : Fin 8} :
    c.next = some i ↔ c.Eligible i ∧ ∀ j, j < i → ¬c.Eligible j := by
  unfold next
  rw [Fin.find?_eq_some_iff]
  simp

theorem next_eq_none {c : Chip} : c.next = none ↔ ∀ i, ¬c.Eligible i := by
  unfold next
  rw [Fin.find?_eq_none_iff]
  simp

/-- The end of interrupt is for what the processor has just taken, for that has the
highest priority of all in service. -/
theorem take_end {c : Chip} {i : Fin 8} (eligible : c.Eligible i) :
    (c.take i).endOfInterrupt = c.withdraw i := by
  have fresh : i ∉ c.isr := fun mem => absurd (eligible.2.2.2 i mem) (lt_irrefl i)
  have first : Fin.find? (fun j => decide (j ∈ insert i c.isr)) = some i := by
    rw [Fin.find?_eq_some_iff]
    refine ⟨by simp, fun j less => ?_⟩
    rw [decide_eq_false_iff_not, Finset.mem_insert, not_or]
    exact ⟨less.ne, fun mem => absurd (eligible.2.2.2 j mem) less.asymm⟩
  unfold endOfInterrupt take withdraw
  dsimp only
  rw [first]
  simp [Finset.erase_insert fresh]

/-- An end of interrupt with nothing in service does nothing. -/
theorem end_idle {c : Chip} (idle : c.isr = ∅) : c.endOfInterrupt = c := by
  unfold endOfInterrupt
  rw [idle]
  have none_ : Fin.find? (fun j : Fin 8 => decide (j ∈ (∅ : Finset (Fin 8)))) = none := by
    rw [Fin.find?_eq_none_iff]
    simp
  rw [none_]

end Chip

/-! ### The two chips of a PC -/

structure Pair where
  master : Chip
  slave : Chip

namespace Pair

def cascade : Fin 8 := 2

/-- The master as it sees its lines: line 2 is what the slave has to say. -/
def seen (p : Pair) : Chip :=
  if p.slave.next.isSome then p.master.request cascade else p.master.withdraw cascade

/-- Both chips know how they are wired: the third initialisation word of the master
marks the slave's line, and that of the slave names it. -/
def Wired (p : Pair) : Prop := cascade ∈ bits p.master.wiring ∧ p.slave.wiring = cascade

instance (p : Pair) : Decidable p.Wired := inferInstanceAs (Decidable (_ ∧ _))

/-- The processor acknowledges an interrupt and is given a vector. -/
def acknowledge (p : Pair) : Option (Pair × Nat) :=
  p.seen.next.bind fun i =>
    if i = cascade then
      if p.Wired then
        p.slave.next.map fun j => (⟨p.seen.take cascade, p.slave.take j⟩, p.slave.base + j)
      else none
    else some (⟨p.master.take i, p.slave⟩, p.master.base + i)

def outportb (p : Pair) (port data : Nat) : Option Pair :=
  if port = 0x20 then (p.master.command data).map fun c => { p with master := c }
  else if port = 0x21 then (p.master.data data).map fun c => { p with master := c }
  else if port = 0xA0 then (p.slave.command data).map fun c => { p with slave := c }
  else if port = 0xA1 then (p.slave.data data).map fun c => { p with slave := c }
  else some p

/-- A device pulls line `n`, the slave's lines being 8 to 15. -/
def raise (p : Pair) (n : Fin 16) : Pair :=
  if low : n.val < 8 then { p with master := p.master.request ⟨n, low⟩ }
  else { p with slave := p.slave.request ⟨n - 8, by omega⟩ }

def withdraw (p : Pair) (n : Fin 16) : Pair :=
  if low : n.val < 8 then { p with master := p.master.withdraw ⟨n, low⟩ }
  else { p with slave := p.slave.withdraw ⟨n - 8, by omega⟩ }

/-- The processor takes line `n`. -/
def taken (p : Pair) (n : Fin 16) : Pair :=
  if low : n.val < 8 then { p with master := p.master.take ⟨n, low⟩ }
  else ⟨p.seen.take cascade, p.slave.take ⟨n - 8, by omega⟩⟩

def vector (p : Pair) (n : Fin 16) : Nat :=
  if n.val < 8 then p.master.base + n else p.slave.base + (n - 8)

/-- A device is waiting on line `n`. -/
def Waiting (p : Pair) (n : Fin 16) : Prop :=
  if low : n.val < 8 then ⟨n, low⟩ ∈ p.master.irr else ⟨n - 8, by omega⟩ ∈ p.slave.irr

instance (p : Pair) (n : Fin 16) : Decidable (p.Waiting n) := by
  unfold Waiting
  infer_instance

def waiting (p : Pair) : Finset (Fin 16) := Finset.univ.filter p.Waiting

/-- The place of a line in the order of priorities, the slave's lines standing where
line 2 is. -/
def rank (n : Fin 16) : Nat :=
  if n.val < 2 then n else if n.val < 8 then n + 8 else n - 6

/-- Nothing is masked or in service, and no device is on the slave's line. -/
structure Idle (p : Pair) : Prop where
  masterReady : p.master.stage = .ready
  slaveReady : p.slave.stage = .ready
  masterServed : p.master.isr = ∅
  slaveServed : p.slave.isr = ∅
  masterMask : p.master.imr = ∅
  slaveMask : p.slave.imr = ∅
  wired : p.Wired
  line : cascade ∉ p.master.irr

end Pair

theorem Chip.eligible_iff {c : Chip} (ready : c.stage = .ready) (served : c.isr = ∅) (mask : c.imr = ∅)
    {i : Fin 8} : c.Eligible i ↔ i ∈ c.irr := by
  simp [Chip.Eligible, ready, served, mask]

namespace Pair

variable {p : Pair}

theorem mem_waiting {n : Fin 16} : n ∈ p.waiting ↔ p.Waiting n := by simp [waiting]

section Idle

variable (idle : p.Idle)
include idle

theorem Idle.seen_eligible {i : Fin 8} :
    p.seen.Eligible i ↔ if i = cascade then p.slave.irr ≠ ∅ else i ∈ p.master.irr := by
  have ready : p.seen.stage = .ready := by
    unfold seen
    split <;> exact idle.masterReady
  have served : p.seen.isr = ∅ := by
    unfold seen
    split <;> exact idle.masterServed
  have mask : p.seen.imr = ∅ := by
    unfold seen
    split <;> exact idle.masterMask
  have some_ : p.slave.next.isSome ↔ p.slave.irr ≠ ∅ := by
    rw [Option.isSome_iff_ne_none, ne_eq, Chip.next_eq_none]
    simp only [Chip.eligible_iff idle.slaveReady idle.slaveServed idle.slaveMask]
    rw [not_iff_not, Finset.eq_empty_iff_forall_notMem]
  rw [Chip.eligible_iff ready served mask]
  unfold seen
  by_cases asks : p.slave.irr ≠ ∅
  · rw [if_pos (some_.mpr asks)]
    by_cases line : i = cascade
    · simp [Chip.request, line, asks]
    · simp [Chip.request, line]
  · rw [if_neg (fun e => asks (some_.mp e))]
    by_cases line : i = cascade
    · simp [Chip.withdraw, line, asks]
    · simp [Chip.withdraw, line]

theorem Idle.low_waiting {i : Fin 8} (mem : i ∈ p.master.irr) :
    i ≠ cascade ∧ Waiting p (i.castLE (by omega)) := by
  refine ⟨fun e => idle.line (e ▸ mem), ?_⟩
  unfold Waiting
  rw [dif_pos (by simp)]
  exact mem

omit idle in
theorem waiting_cases {n : Fin 16} (waits : p.Waiting n) :
    (∃ low : n.val < 8, ⟨n, low⟩ ∈ p.master.irr) ∨
      8 ≤ n.val ∧ (⟨n - 8, by omega⟩ : Fin 8) ∈ p.slave.irr := by
  unfold Waiting at waits
  split at waits
  · rename_i low
    exact .inl ⟨low, waits⟩
  · rename_i high
    exact .inr ⟨by omega, waits⟩

/-- The master takes the request of one of its own lines. -/
theorem Idle.acknowledge_low {i : Fin 8} (first : p.seen.next = some i) (own : i ≠ cascade) :
    ∃ n ∈ p.waiting, (∀ m ∈ p.waiting, rank n ≤ rank m) ∧
      p.acknowledge = some (p.taken n, p.vector n) := by
  obtain ⟨asks, before⟩ := Chip.next_eq_some.mp first
  simp only [idle.seen_eligible] at asks before
  rw [if_neg own] at asks
  obtain ⟨_, waits⟩ := idle.low_waiting asks
  refine ⟨i.castLE (by omega), mem_waiting.mpr waits, fun m mem => ?_, ?_⟩
  · unfold rank
    simp only [Fin.val_castLE]
    rcases waiting_cases (mem_waiting.mp mem) with ⟨low, here⟩ | ⟨high, here⟩
    · have other := (idle.low_waiting here).1
      have behind : ¬(⟨m, low⟩ : Fin 8) < i := fun less => before _ less (by rwa [if_neg other])
      rw [Fin.lt_def] at behind
      dsimp only at behind
      split_ifs <;> omega
    · have above : ¬cascade < i := fun less =>
        before cascade less (by rw [if_pos rfl]; exact Finset.ne_empty_of_mem here)
      have apart : i.val ≠ cascade.val := fun e => own (Fin.ext e)
      rw [Fin.lt_def] at above
      have line : (cascade : Fin 8).val = 2 := rfl
      rw [if_pos (by omega), if_neg (by omega), if_neg (by omega)]
      omega
  · unfold acknowledge taken vector
    rw [first, Option.bind_some, if_neg own, dif_pos (by simp), if_pos (by simp)]
    rfl

/-- The master takes the request that the slave passes on. -/
theorem Idle.acknowledge_high (first : p.seen.next = some cascade) :
    ∃ n ∈ p.waiting, (∀ m ∈ p.waiting, rank n ≤ rank m) ∧
      p.acknowledge = some (p.taken n, p.vector n) := by
  obtain ⟨asks, before⟩ := Chip.next_eq_some.mp first
  simp only [idle.seen_eligible] at asks before
  rw [if_pos trivial] at asks
  have slave := fun i => Chip.eligible_iff idle.slaveReady idle.slaveServed idle.slaveMask (i := i)
  obtain ⟨j, next⟩ : ∃ j, p.slave.next = some j := by
    rw [← Option.isSome_iff_exists, Option.isSome_iff_ne_none, ne_eq, Chip.next_eq_none]
    intro none_
    obtain ⟨i, mem⟩ := Finset.nonempty_iff_ne_empty.mpr asks
    exact none_ i ((slave i).mpr mem)
  obtain ⟨mem, earlier⟩ := Chip.next_eq_some.mp next
  rw [slave] at mem
  have index : (⟨8 + j.val - 8, by omega⟩ : Fin 8) = j := Fin.ext (by simp)
  have waits : Waiting p (⟨8 + j, by omega⟩ : Fin 16) := by
    unfold Waiting
    rw [dif_neg (by simp), index]
    exact mem
  refine ⟨⟨8 + j, by omega⟩, mem_waiting.mpr waits, fun m memM => ?_, ?_⟩
  · unfold rank
    dsimp only
    rw [if_neg (by omega), if_neg (by omega)]
    rcases waiting_cases (mem_waiting.mp memM) with ⟨low, here⟩ | ⟨high, here⟩
    · have other := (idle.low_waiting here).1
      have behind : ¬(⟨m, low⟩ : Fin 8) < cascade := fun less => before _ less (by rwa [if_neg other])
      have apart : m.val ≠ 2 := fun e => other (Fin.ext e)
      rw [Fin.lt_def] at behind
      have line : (cascade : Fin 8).val = 2 := rfl
      dsimp only at behind
      rw [if_neg (by omega), if_pos low]
      omega
    · have behind : ¬(⟨m - 8, by omega⟩ : Fin 8) < j := fun less => earlier _ less ((slave _).mpr here)
      rw [Fin.lt_def] at behind
      dsimp only at behind
      rw [if_neg (by omega), if_neg (by omega)]
      omega
  · unfold acknowledge taken vector
    rw [first, Option.bind_some, if_pos rfl, if_pos idle.wired, next, Option.map_some,
      dif_neg (by simp), if_neg (by simp)]
    simp only [Nat.add_sub_cancel_left]

/-- The processor is given the vector of the waiting line of the highest priority. -/
theorem Idle.acknowledge : p.acknowledge = none ∧ p.waiting = ∅ ∨
    ∃ n ∈ p.waiting, (∀ m ∈ p.waiting, rank n ≤ rank m) ∧
      p.acknowledge = some (p.taken n, p.vector n) := by
  cases first : p.seen.next with
  | none =>
    have none_ := Chip.next_eq_none.mp first
    simp only [idle.seen_eligible] at none_
    refine .inl ⟨by rw [Pair.acknowledge, first]; rfl, ?_⟩
    rw [Finset.eq_empty_iff_forall_notMem]
    intro n mem
    rcases waiting_cases (mem_waiting.mp mem) with ⟨low, here⟩ | ⟨_, here⟩
    · exact none_ _ (by rwa [if_neg (idle.low_waiting here).1])
    · exact none_ cascade (by rw [if_pos rfl]; exact Finset.ne_empty_of_mem here)
  | some i =>
    right
    by_cases own : i = cascade
    · subst own
      exact idle.acknowledge_high first
    · exact idle.acknowledge_low first own

end Idle

/-! ### The end of an interrupt -/

/-- The master is sent an end of interrupt, and the slave when `both`. -/
def finish (p : Pair) (both : Bool) : Pair :=
  ⟨p.master.endOfInterrupt, if both then p.slave.endOfInterrupt else p.slave⟩

def outports (p : Pair) (writes : List (Nat × Nat)) : Option Pair :=
  writes.foldlM (fun p w => p.outportb w.1 w.2) p

theorem outports_finish (p : Pair) (both : Bool) :
    p.outports ((if both then [(0xA0, 0x20)] else []) ++ [(0x20, 0x20)]) = some (p.finish both) := by
  cases both <;> rfl

theorem raise_waiting (p : Pair) (n : Fin 16) : (p.raise n).waiting = insert n p.waiting := by
  ext m
  rw [mem_waiting, Finset.mem_insert, mem_waiting]
  unfold raise Waiting
  by_cases lowN : n.val < 8
  · rw [dif_pos lowN]
    by_cases lowM : m.val < 8
    · simp only [dif_pos lowM, Chip.request, Finset.mem_insert, Fin.ext_iff]
    · have other : m.val ≠ n.val := by omega
      simp only [dif_neg lowM, Fin.ext_iff, other, false_or]
  · rw [dif_neg lowN]
    by_cases lowM : m.val < 8
    · have other : m.val ≠ n.val := by omega
      simp only [dif_pos lowM, Fin.ext_iff, other, false_or]
    · have same : m.val - 8 = n.val - 8 ↔ m.val = n.val := by omega
      simp only [dif_neg lowM, Chip.request, Finset.mem_insert, Fin.ext_iff, same]

theorem withdraw_waiting (p : Pair) (n : Fin 16) : (p.withdraw n).waiting = p.waiting.erase n := by
  ext m
  rw [mem_waiting, Finset.mem_erase, mem_waiting]
  unfold withdraw Waiting
  by_cases lowN : n.val < 8
  · rw [dif_pos lowN]
    by_cases lowM : m.val < 8
    · simp only [dif_pos lowM, Chip.withdraw, Finset.mem_erase, ne_eq, Fin.ext_iff]
    · have other : m.val ≠ n.val := by omega
      simp only [dif_neg lowM, ne_eq, Fin.ext_iff, other, not_false_eq_true, true_and]
  · rw [dif_neg lowN]
    by_cases lowM : m.val < 8
    · have other : m.val ≠ n.val := by omega
      simp only [dif_pos lowM, ne_eq, Fin.ext_iff, other, not_false_eq_true, true_and]
    · have same : m.val - 8 = n.val - 8 ↔ m.val = n.val := by omega
      simp only [dif_neg lowM, Chip.withdraw, Finset.mem_erase, ne_eq, Fin.ext_iff, same]

section Idle

variable (idle : p.Idle)
include idle

theorem Idle.raise {n : Fin 16} (device : n ≠ 2) : (p.raise n).Idle := by
  unfold Pair.raise
  split
  · rename_i low
    have line : cascade ∉ insert ⟨n, low⟩ p.master.irr := by
      rw [Finset.mem_insert, not_or]
      exact ⟨fun e => device (Fin.ext (congrArg Fin.val e).symm), idle.line⟩
    exact ⟨idle.masterReady, idle.slaveReady, idle.masterServed, idle.slaveServed, idle.masterMask,
      idle.slaveMask, idle.wired, line⟩
  · exact ⟨idle.masterReady, idle.slaveReady, idle.masterServed, idle.slaveServed, idle.masterMask,
      idle.slaveMask, idle.wired, idle.line⟩

theorem Idle.withdraw (n : Fin 16) : (p.withdraw n).Idle := by
  unfold Pair.withdraw
  split
  · exact ⟨idle.masterReady, idle.slaveReady, idle.masterServed, idle.slaveServed, idle.masterMask,
      idle.slaveMask, idle.wired, fun mem => idle.line (Finset.mem_of_mem_erase mem)⟩
  · exact ⟨idle.masterReady, idle.slaveReady, idle.masterServed, idle.slaveServed, idle.masterMask,
      idle.slaveMask, idle.wired, idle.line⟩

/-- The master has nothing in service again, whichever line was taken. -/
theorem Idle.master_finished {n : Fin 16} (waits : p.Waiting n) :
    (p.taken n).master.endOfInterrupt = (p.withdraw n).master := by
  unfold taken Pair.withdraw
  rcases waiting_cases waits with ⟨low, here⟩ | ⟨high, here⟩
  · rw [dif_pos low, dif_pos low]
    exact Chip.take_end ((Chip.eligible_iff idle.masterReady idle.masterServed idle.masterMask).mpr here)
  · have asks := Finset.ne_empty_of_mem here
    have eligible : p.seen.Eligible cascade := idle.seen_eligible.mpr (by rw [if_pos rfl]; exact asks)
    have passed : p.slave.next.isSome := by
      rw [Option.isSome_iff_ne_none, ne_eq, Chip.next_eq_none]
      exact fun none_ => none_ _
        ((Chip.eligible_iff idle.slaveReady idle.slaveServed idle.slaveMask).mpr here)
    rw [dif_neg (by omega), dif_neg (by omega)]
    dsimp only
    rw [Chip.take_end eligible, seen, if_pos passed]
    simp [Chip.request, Chip.withdraw, Finset.erase_insert idle.line]

/-- After the ends of interrupt the line is as if it had not been pulled, provided that
the slave gets its own where the line is the slave's. -/
theorem Idle.finished {n : Fin 16} (waits : p.Waiting n) {both : Bool} (told : 8 ≤ n.val → both = true) :
    (p.taken n).finish both = p.withdraw n := by
  have master := idle.master_finished waits
  have slave : (if both then (p.taken n).slave.endOfInterrupt else (p.taken n).slave) =
      (p.withdraw n).slave := by
    unfold taken Pair.withdraw
    rcases waiting_cases waits with ⟨low, here⟩ | ⟨high, here⟩
    · rw [dif_pos low, dif_pos low]
      cases both with
      | true => exact Chip.end_idle idle.slaveServed
      | false => rfl
    · rw [dif_neg (by omega), dif_neg (by omega), told high, if_pos rfl]
      exact Chip.take_end ((Chip.eligible_iff idle.slaveReady idle.slaveServed idle.slaveMask).mpr here)
  unfold finish
  rw [master, slave]

omit idle in
/-- Without it the slave's line stays in service. -/
theorem unfinished {n : Fin 16} (high : 8 ≤ n.val) :
    ((p.taken n).finish false).slave.isr ≠ ∅ := by
  unfold finish taken
  rw [dif_neg (by omega)]
  exact Finset.insert_ne_empty _ _

end Idle

end Pair

end Pic
