import Mathlib.Data.Finset.Erase
import Mathlib.Data.Finset.Range
import Mathlib.Data.Finset.Filter
import RiseOS.Library.Refinement
import RiseOS.Frames.Bitmap

/-! The bitmap array as a finite set of frame numbers. -/
namespace RiseOS
open Refinement

def frameCount : Nat := bitmapSize * blocksPerBucket

inductive BitOp where
  | setbit (i : Nat)
  | clearbit (i : Nat)
  | isset (i : Nat)
  deriving DecidableEq

def BitOp.frame : BitOp → Nat
  | .setbit i | .clearbit i | .isset i => i

def bitStep (bitmap : Bitmap) : BitOp → Bitmap × Option Bool
  | .setbit i => (setbit bitmap i, none)
  | .clearbit i => (clearbit bitmap i, none)
  | .isset i => (bitmap, some (isset bitmap i))

def setStep (frames : Finset Nat) : BitOp → Finset Nat × Option Bool
  | .setbit i => (insert i frames, none)
  | .clearbit i => (frames.erase i, none)
  | .isset i => (frames, some (decide (i ∈ frames)))

/-- The frames whose bit is set in the array. -/
def encoded (bitmap : Bitmap) : Finset Nat :=
  (Finset.range frameCount).filter fun i => isset bitmap i = true

theorem mem_encoded (bitmap : Bitmap) (j : Nat) :
    j ∈ encoded bitmap ↔ j < frameCount ∧ isset bitmap j = true := by
  simp [encoded]

theorem isset_setbit_iff (bitmap : Bitmap) (i j : Nat) :
    isset (setbit bitmap i) j = true ↔ j = i ∨ isset bitmap j = true := by
  simp [isset_setbit]

theorem isset_clearbit_iff (bitmap : Bitmap) (i j : Nat) :
    isset (clearbit bitmap i) j = true ↔ j ≠ i ∧ isset bitmap j = true := by
  simp [isset_clearbit]

theorem encoded_setbit (bitmap : Bitmap) {i : Nat} (inside : i < frameCount) :
    encoded (setbit bitmap i) = insert i (encoded bitmap) := by
  ext j
  simp only [Finset.mem_insert, mem_encoded, isset_setbit_iff]
  constructor
  · rintro ⟨below, here | set⟩
    · exact .inl here
    · exact .inr ⟨below, set⟩
  · rintro (rfl | ⟨below, set⟩)
    · exact ⟨inside, .inl rfl⟩
    · exact ⟨below, .inr set⟩

theorem encoded_clearbit (bitmap : Bitmap) (i : Nat) :
    encoded (clearbit bitmap i) = (encoded bitmap).erase i := by
  ext j
  simp only [Finset.mem_erase, mem_encoded, isset_clearbit_iff]
  exact and_left_comm

/-- The macros on the array are insertion, removal and membership. -/
theorem bitStep_implements :
    Implements (fun op : BitOp => op.frame < frameCount) bitStep setStep
      fun bitmap frames => encoded bitmap = frames := by
  rintro bitmap frames op inside rfl
  cases op with
  | setbit i => exact ⟨rfl, encoded_setbit bitmap inside⟩
  | clearbit i => exact ⟨rfl, encoded_clearbit bitmap i⟩
  | isset i =>
    have below : i < frameCount := inside
    simp [bitStep, setStep, mem_encoded, below]

theorem bitmap_refines_set (bitmap : Bitmap) :
    (∀ i j, i < frameCount → j < frameCount →
      (isset (setbit bitmap i) j = true ↔ j = i ∨ isset bitmap j = true) ∧
      (isset (clearbit bitmap i) j = true ↔ j ≠ i ∧ isset bitmap j = true)) ∧
    ∀ ops : List BitOp, (∀ op ∈ ops, op.frame < frameCount) →
      (answers bitStep bitmap ops).1 = (answers setStep (encoded bitmap) ops).1 ∧
      ∀ j, j < frameCount → (isset (answers bitStep bitmap ops).2 j = true ↔
        j ∈ (answers setStep (encoded bitmap) ops).2) := by
  constructor
  · intro i j _ _
    exact ⟨isset_setbit_iff bitmap i j, isset_clearbit_iff bitmap i j⟩
  · intro ops inside
    obtain ⟨same, encodes⟩ := bitStep_implements.run ops inside rfl
    refine ⟨same, fun j below => ?_⟩
    rw [← encodes, mem_encoded]
    simp [below]

/-- Two frames of one word, one of them given back. -/
theorem neighbours_told_apart : (answers bitStep (fun _ => 0#32)
    [.setbit 8, .setbit 9, .clearbit 8, .isset 8, .isset 9]).1 =
      (answers setStep (encoded fun _ => 0#32)
        [.setbit 8, .setbit 9, .clearbit 8, .isset 8, .isset 9]).1 :=
  ((bitmap_refines_set fun _ => 0#32).2 [.setbit 8, .setbit 9, .clearbit 8, .isset 8, .isset 9]
    (by decide)).1

end RiseOS
