import RiseOS.Library.Moves
import RiseOS.Kernel.LibcString

/-! memmove: each direction of its loop never reads a byte that it has written. -/
namespace RiseOS
open Words Moves

/-- The address of `p[k]`. -/
def byteAddress (p k : Nat) : Nat := wrap (p + k)

theorem byteAddress_eq {p size k : Nat} (room : p + size ≤ 2 ^ 32) (inside : k < size) :
    byteAddress p k = p + k := wrap_eq (by omega)

section Loops

variable (dst src : Nat)

theorem moveUp_eq (count i : Nat) (m : Memory) : moveUp dst src count i m =
    moves (byteAddress dst) (byteAddress src) (List.range' i count) m := by
  induction count generalizing i m with
  | zero => rfl
  | succ count ih => simp [moveUp, moves, byteAddress, List.range'_succ, ih]

theorem moveDown_eq (i : Nat) (m : Memory) : moveDown dst src i m =
    moves (byteAddress dst) (byteAddress src) (List.range i).reverse m := by
  induction i generalizing m with
  | zero => rfl
  | succ i ih => simp [moveDown, moves, byteAddress, List.range_succ, ih]

variable {dst src} {size : Nat} (roomDst : dst + size ≤ 2 ^ 32) (roomSrc : src + size ≤ 2 ^ 32)
include roomDst roomSrc

/-- Upwards, the bytes written so far lie below all that is still to be read. -/
theorem up_unspoiled (before : dst ≤ src) :
    Unspoiled (byteAddress dst) (byteAddress src) (List.range' 0 size) := by
  apply (List.pairwise_lt_range' (s := 0) (n := size)).imp_of_mem
  intro j k inJ inK less
  simp only [List.mem_range'_1, Nat.zero_add] at inJ inK
  rw [byteAddress_eq roomDst inJ.2, byteAddress_eq roomDst inK.2, byteAddress_eq roomSrc inK.2]
  omega

/-- Downwards they lie above it. -/
theorem down_unspoiled (behind : src ≤ dst) :
    Unspoiled (byteAddress dst) (byteAddress src) (List.range size).reverse := by
  apply List.pairwise_reverse.mpr
  apply (List.pairwise_lt_range (n := size)).imp_of_mem
  intro j k inJ inK less
  rw [List.mem_range] at inJ inK
  rw [byteAddress_eq roomDst inJ, byteAddress_eq roomDst inK, byteAddress_eq roomSrc inJ]
  omega

/-- The rounds of a call, in the order in which they are made. -/
theorem memmove_rounds (m : Memory) : ∃ ks : List Nat, (∀ k, k ∈ ks ↔ k < size) ∧
    Unspoiled (byteAddress dst) (byteAddress src) ks ∧
    (memmove m dst src size).1 = moves (byteAddress dst) (byteAddress src) ks m := by
  by_cases before : dst < src
  · refine ⟨List.range' 0 size, ?_, up_unspoiled roomDst roomSrc before.le, ?_⟩
    · simp [List.mem_range'_1]
    · simp [memmove, before, moveUp_eq]
  · refine ⟨(List.range size).reverse, ?_, down_unspoiled roomDst roomSrc (by omega), ?_⟩
    · simp
    · simp [memmove, before, moveDown_eq]

end Loops

/-- The bytes arrive as they were before the call, whatever the overlap, and no
others change. -/
theorem memmove_copies (m : Memory) (dst src size : Nat) (roomDst : dst + size ≤ 2 ^ 32)
    (roomSrc : src + size ≤ 2 ^ 32) :
    (∀ i, i < size → (memmove m dst src size).1 (dst + i) = m (src + i)) ∧
      ∀ a, a ∉ bytes dst size → (memmove m dst src size).1 a = m a := by
  obtain ⟨ks, rounds, unspoiled, moved⟩ := memmove_rounds roomDst roomSrc m
  rw [moved]
  constructor
  · intro i inside
    have copied := moves_inside _ _ unspoiled m ((rounds i).mpr inside)
    rwa [byteAddress_eq roomDst inside, byteAddress_eq roomSrc inside] at copied
  · intro a outside
    apply moves_outside
    intro k member
    have inside := (rounds k).mp member
    rw [byteAddress_eq roomDst inside]
    rintro rfl
    exact outside (by simp [bytes, inside])

/-- Three bytes, moved up by one over themselves. -/
theorem overlapping_bytes_moved : (memmove (fun a => BitVec.ofNat 8 a) 1 0 3).1 (1 + 2) = 2#8 :=
  (memmove_copies (fun a => BitVec.ofNat 8 a) 1 0 3 (by decide) (by decide)).1 2 (by decide)

end RiseOS
