import Mathlib.Data.Multiset.AddSub
import RiseOS.Interrupts.Dispatch
import RiseOS.Library.Pic
import RiseOS.Library.Runs

/-! From the lines of the interrupt controllers to the processor and back: what
irq_remap programs, and what the ends of interrupt of irq_handler leave in service. -/
namespace RiseOS
open Words X86 Runs Pic

def remapped : Pair where
  master := ⟨∅, ∅, ∅, 32, 0x04, false, .ready⟩
  slave := ⟨∅, ∅, ∅, 40, 0x02, false, .ready⟩

theorem bits_zero : bits 0 = ∅ := by decide

/-- Whatever the firmware has left in the controllers, also in the middle of a program. -/
theorem irqRemap_programs (p : Pair) : p.outports (portWrites irqRemap) = some remapped := by
  simp [portWrites, irqRemap, IrqEvent.write, Pair.outports, Pair.outportb, Chip.command, Chip.data,
    Nat.testBit, bits_zero, remapped]

/-- The two controllers as irq_remap leaves them, with requests that wait. -/
structure Remapped (p : Pair) : Prop where
  idle : p.Idle
  master : p.master.base = 32
  slave : p.slave.base = 40

theorem remapped_idle : Remapped remapped :=
  ⟨⟨rfl, rfl, rfl, rfl, rfl, rfl, by decide, by decide⟩, rfl, rfl⟩

section Remapped

variable {p : Pair} (h : Remapped p)
include h

theorem Remapped.vector (n : Fin 16) : p.vector n = 32 + n := by
  unfold Pair.vector
  rw [h.master, h.slave]
  split <;> omega

theorem Remapped.raise {n : Fin 16} (device : n ≠ 2) : Remapped (p.raise n) := by
  refine ⟨h.idle.raise device, ?_, ?_⟩
  · unfold Pair.raise
    split <;> exact h.master
  · unfold Pair.raise
    split <;> exact h.slave

theorem Remapped.withdraw (n : Fin 16) : Remapped (p.withdraw n) := by
  refine ⟨h.idle.withdraw n, ?_, ?_⟩
  · unfold Pair.withdraw
    split <;> exact h.master
  · unfold Pair.withdraw
    split <;> exact h.slave

end Remapped

/-! ### Interrupts, one after the other -/

/-- The controllers, the requests that they have latched so far, and the vectors that
they have given to the processor. -/
structure Lines where
  pics : Pair
  latched : List (Fin 16)
  delivered : List Nat

/-- A device pulls a line, or the processor, in this state and with these handlers, takes
an interrupt if there is one. -/
inductive LineEvent where
  | raise (n : Fin 16)
  | interrupt (c : Cpu) (routines : IrqRoutines)

section System

variable (links : IrqLinks) (handlers : Handlers)

/-- int_no as irq_handler compares it with 40, after the handler has run. -/
def numberAtEnd (c : Cpu) (routines : IrqRoutines) (n : Fin 16) : Nat :=
  regsField (fireIrq links handlers routines c n).mem (irqArgument (enterIrq links c n)) .intNo

def lineStep (s : Lines) : LineEvent → Option Lines
  | .raise n =>
      some { s with pics := s.pics.raise n, latched := if s.pics.Waiting n then s.latched else s.latched ++ [n] }
  | .interrupt c routines =>
      match s.pics.acknowledge with
      | none => some s
      | some (pics, v) =>
          if irq : 32 ≤ v ∧ v < 48 then
            (pics.outports (portWrites (fireIrq links handlers routines c ⟨v - 32, by omega⟩).trace)).map
              fun pics => { s with pics, delivered := s.delivered ++ [v] }
          else none

/-- No device is on the line of the slave. -/
def LineAllowed (_ : Lines) : LineEvent → Prop
  | .raise n => n ≠ 2
  | .interrupt _ _ => True

instance : ∀ s e, Decidable (LineAllowed s e)
  | _, .raise n => inferInstanceAs (Decidable (n ≠ 2))
  | _, .interrupt _ _ => isTrue trivial

/-- An interrupt of the slave has a number from 40 on when irq_handler is through. -/
def EndsOnItsSide (s : Lines) : LineEvent → Prop
  | .raise _ => True
  | .interrupt c routines => ∀ r ∈ s.pics.acknowledge, ∀ irq : 32 ≤ r.2 ∧ r.2 < 48,
      40 ≤ r.2 → 40 ≤ numberAtEnd links handlers c routines ⟨r.2 - 32, by omega⟩

instance : ∀ s e, Decidable (EndsOnItsSide links handlers s e)
  | _, .raise _ => isTrue trivial
  | s, .interrupt c routines => inferInstanceAs (Decidable (∀ r ∈ s.pics.acknowledge,
      ∀ irq : 32 ≤ r.2 ∧ r.2 < 48,
        40 ≤ r.2 → 40 ≤ numberAtEnd links handlers c routines ⟨r.2 - 32, by omega⟩))

/-- Nothing is in service between two interrupts. -/
def NothingInService (s : Lines) : Prop := s.pics.master.isr = ∅ ∧ s.pics.slave.isr = ∅

/-- Each latched request has been delivered once or still waits. -/
def Conserved (s : Lines) : Prop :=
  ((s.latched.map fun n => 32 + n.val : List Nat) : Multiset Nat) =
    (s.delivered : Multiset Nat) + s.pics.waiting.val.map fun n => 32 + n.val

structure LinesInv (s : Lines) : Prop where
  pics : Remapped s.pics
  conserved : Conserved s

theorem fireIrq_writes (c : Cpu) (routines : IrqRoutines) (n : Fin 16) :
    portWrites (fireIrq links handlers routines c n).trace =
      (if decide (40 ≤ numberAtEnd links handlers c routines n) then [(0xA0, 0x20)] else []) ++
        [(0x20, 0x20)] := by
  unfold numberAtEnd fireIrq irqHandler portWrites
  dsimp only
  simp only [List.filterMap_append, decide_eq_true_eq]
  congr 1
  · split <;> split <;> simp_all [IrqEvent.write]

variable {s : Lines} (h : LinesInv s)
include h

theorem LinesInv.raise {n : Fin 16} (device : n ≠ 2) : LinesInv
    { s with pics := s.pics.raise n, latched := if s.pics.Waiting n then s.latched else s.latched ++ [n] } := by
  refine ⟨h.pics.raise device, ?_⟩
  have before := h.conserved
  unfold Conserved at before ⊢
  dsimp only
  rw [Pair.raise_waiting]
  by_cases waits : s.pics.Waiting n
  · rw [if_pos waits, Finset.insert_eq_of_mem (Pair.mem_waiting.mpr waits)]
    exact before
  · have fresh : n ∉ s.pics.waiting := fun mem => waits (Pair.mem_waiting.mp mem)
    rw [if_neg waits, Finset.insert_val_of_notMem fresh, List.map_append, ← Multiset.coe_add, before,
      Multiset.map_cons, Multiset.add_cons, List.map_cons, List.map_nil, Multiset.coe_singleton,
      add_comm, Multiset.singleton_add]

/-- An interrupt finds nothing, or is for the waiting line of the highest priority. -/
theorem LinesInv.interrupt (c : Cpu) (routines : IrqRoutines) :
    s.pics.waiting = ∅ ∧ lineStep links handlers s (.interrupt c routines) = some s ∧
      EndsOnItsSide links handlers s (.interrupt c routines) ∨
    ∃ n ∈ s.pics.waiting, (∀ m ∈ s.pics.waiting, Pair.rank n ≤ Pair.rank m) ∧
      lineStep links handlers s (.interrupt c routines) = some { s with
        pics := (s.pics.taken n).finish (decide (40 ≤ numberAtEnd links handlers c routines n))
        delivered := s.delivered ++ [32 + n.val] } ∧
      (EndsOnItsSide links handlers s (.interrupt c routines) ↔
        (8 ≤ n.val → 40 ≤ numberAtEnd links handlers c routines n)) := by
  rcases h.pics.idle.acknowledge with ⟨none_, empty⟩ | ⟨n, waits, first, given⟩
  · refine .inl ⟨empty, ?_, fun r found => ?_⟩
    · unfold lineStep
      rw [none_]
    · rw [none_] at found
      cases found
  · rw [h.pics.vector] at given
    have index : (⟨32 + n.val - 32, by omega⟩ : Fin 16) = n := Fin.ext (by simp)
    refine .inr ⟨n, waits, first, ?_, ?_⟩
    · unfold lineStep
      rw [given]
      dsimp only
      rw [dif_pos ⟨by omega, by omega⟩, index, fireIrq_writes, Pair.outports_finish, Option.map_some]
    · unfold EndsOnItsSide
      rw [given]
      constructor
      · intro ends high
        have seen := ends _ rfl ⟨by dsimp only; omega, by dsimp only; omega⟩ (by dsimp only; omega)
        rwa [index] at seen
      · intro ends r found irq high
        obtain rfl := Option.some.inj found
        dsimp only at high ⊢
        rw [index]
        exact ends (by omega)

/-- One step: with the right number at its end an interrupt leaves nothing behind. -/
theorem LinesInv.step {s' : Lines} {e : LineEvent} (allowed : LineAllowed s e)
    (step : lineStep links handlers s e = some s') (ends : EndsOnItsSide links handlers s e) :
    LinesInv s' := by
  cases e with
  | raise n =>
    obtain rfl := Option.some.inj step
    exact h.raise allowed
  | interrupt c routines =>
    rcases h.interrupt links handlers c routines with ⟨_, same, _⟩ | ⟨n, waits, _, taken, side⟩
    · rw [same] at step
      exact Option.some.inj step ▸ h
    · rw [taken] at step
      obtain rfl := Option.some.inj step
      have told : 8 ≤ n.val → decide (40 ≤ numberAtEnd links handlers c routines n) = true :=
        fun high => decide_eq_true (side.mp ends high)
      rw [h.pics.idle.finished (Pair.mem_waiting.mp waits) told]
      refine ⟨h.pics.withdraw n, ?_⟩
      have before := h.conserved
      unfold Conserved at before ⊢
      dsimp only
      have inside : n ∈ s.pics.waiting.val := waits
      have listed : 32 + n.val ∈ s.pics.waiting.val.map fun n => 32 + n.val :=
        Multiset.mem_map_of_mem _ inside
      rw [before, Pair.withdraw_waiting, Finset.erase_val, ← Multiset.coe_add, add_assoc,
        Multiset.map_erase_of_mem _ _ inside, Multiset.coe_singleton, Multiset.singleton_add,
        Multiset.cons_erase listed]

/-- Otherwise the slave's line stays in service. -/
theorem LinesInv.misses {s' : Lines} {e : LineEvent}
    (step : lineStep links handlers s e = some s') (misses : ¬EndsOnItsSide links handlers s e) :
    ¬NothingInService s' := by
  cases e with
  | raise n => exact absurd trivial misses
  | interrupt c routines =>
    rcases h.interrupt links handlers c routines with ⟨_, _, side⟩ | ⟨n, waits, _, taken, side⟩
    · exact absurd side misses
    · rw [side] at misses
      obtain ⟨high, low⟩ := Classical.not_imp.mp misses
      rw [taken] at step
      obtain rfl := Option.some.inj step
      rw [decide_eq_false low]
      exact fun idle => Pair.unfinished high idle.2

theorem LinesInv.returns (e : LineEvent) : ∃ s', lineStep links handlers s e = some s' := by
  cases e with
  | raise n => exact ⟨_, rfl⟩
  | interrupt c routines =>
    rcases h.interrupt links handlers c routines with ⟨_, same, _⟩ | ⟨n, _, _, taken, _⟩
    · exact ⟨s, same⟩
    · exact ⟨_, taken⟩

end System

/-- From irq_remap on. -/
def startLines : Lines := ⟨remapped, [], []⟩

theorem startLines_inv : LinesInv startLines :=
  ⟨remapped_idle, by unfold Conserved; decide⟩

section Runs

variable (links : IrqLinks) (handlers : Handlers) (events : List LineEvent)
  (permitted : Permitted (lineStep links handlers) LineAllowed startLines events)
include permitted

/-- In a run nothing stays in service between two interrupts exactly when every
interrupt of the slave has a number from 40 on at its end. -/
theorem served_iff : Always (lineStep links handlers) NothingInService startLines events ↔
    Permitted (lineStep links handlers) (EndsOnItsSide links handlers) startLines events := by
  apply always_iff_permitted (lineStep links handlers) LineAllowed (EndsOnItsSide links handlers)
    LinesInv NothingInService
  · intro s inv
    exact ⟨inv.pics.idle.masterServed, inv.pics.idle.slaveServed⟩
  · intro s e inv _
    exact inv.returns links handlers e
  · intro s e s' inv allowed step ends
    exact inv.step links handlers allowed step ends
  · intro s e s' inv _ step misses
    exact inv.misses links handlers step misses
  · exact startLines_inv
  · exact permitted

/-- Then no request is lost or delivered twice, and the next interrupt is always for
the waiting line of the highest priority, at 32 and its number. -/
theorem requests_delivered
    (ends : Permitted (lineStep links handlers) (EndsOnItsSide links handlers) startLines events) :
    Always (lineStep links handlers) (fun s => Conserved s ∧
      ∀ c routines, s.pics.waiting ≠ ∅ → ∃ n ∈ s.pics.waiting,
        (∀ m ∈ s.pics.waiting, Pair.rank n ≤ Pair.rank m) ∧
        ∃ s', lineStep links handlers s (.interrupt c routines) = some s' ∧
          s'.delivered = s.delivered ++ [32 + n.val]) startLines events := by
  have both : Permitted (lineStep links handlers)
      (fun s e => LineAllowed s e ∧ EndsOnItsSide links handlers s e) startLines events := by
    rw [permitted_iff_split] at permitted ends ⊢
    exact fun done e rest split t ran => ⟨permitted done e rest split t ran, ends done e rest split t ran⟩
  have always := always_invariant (lineStep links handlers) _ LinesInv
    (fun s e s' inv ok step => inv.step links handlers ok.1 step ok.2) startLines events startLines_inv both
  intro done before s reached
  have inv := always done before s reached
  refine ⟨inv.conserved, fun c routines some_ => ?_⟩
  rcases inv.interrupt links handlers c routines with ⟨empty, _⟩ | ⟨n, waits, first, taken, _⟩
  · exact absurd empty some_
  · exact ⟨n, waits, first, _, taken, rfl⟩

end Runs

/-- A processor with some number from 40 on wherever a stub looks. -/
def filledCpu : Cpu := { zeroCpu with mem := fun _ => 0x28#8 }

/-- The timer, the clock and the keyboard at once, on the processor with zeros in low
memory and then on the other one. -/
def threeLines (clock : Cpu) : List LineEvent :=
  [.raise 8, .raise 1, .raise 0, .raise 8, .interrupt zeroCpu fun _ => 0,
   .interrupt zeroCpu fun _ => 0, .interrupt clock fun _ => 0]

theorem clock_stays_in_service :
    ¬Always (lineStep ⟨0x101000, 0x102000⟩ fun _ m _ => m) NothingInService startLines
      (threeLines zeroCpu) := by
  rw [served_iff ⟨0x101000, 0x102000⟩ (fun _ m _ => m) (threeLines zeroCpu) (by decide +kernel)]
  decide +kernel

theorem three_lines_delivered : Always (lineStep ⟨0x101000, 0x102000⟩ fun _ m _ => m)
    (fun s => Conserved s ∧ ∀ c routines, s.pics.waiting ≠ ∅ → ∃ n ∈ s.pics.waiting,
      (∀ m ∈ s.pics.waiting, Pair.rank n ≤ Pair.rank m) ∧
      ∃ s', lineStep ⟨0x101000, 0x102000⟩ (fun _ m _ => m) s (.interrupt c routines) = some s' ∧
        s'.delivered = s.delivered ++ [32 + n.val]) startLines (threeLines filledCpu) :=
  requests_delivered ⟨0x101000, 0x102000⟩ (fun _ m _ => m) (threeLines filledCpu) (by decide +kernel)
    (by decide +kernel)

end RiseOS
