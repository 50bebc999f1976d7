import RiseOS.Libc.Memmove

/-! memcpy, memset and memcmp: what the byte loops do to any two areas, overlapping
or not. -/
namespace RiseOS
open Words Moves Strings

/-- memcpy copies upwards, whichever way the areas overlap. -/
theorem memcpy_moves (m : Memory) (dst src size : Nat) : (memcpy m dst src size).1 =
    moves (byteAddress dst) (byteAddress src) (List.range size) m := by
  rw [memcpy, moveUp_eq, List.range_eq_range']

theorem memcpy_elsewhere (m : Memory) {dst src size : Nat} (roomDst : dst + size ≤ 2 ^ 32) {a : Nat}
    (outside : a ∉ bytes dst size) : (memcpy m dst src size).1 a = m a := by
  rw [memcpy_moves]
  apply moves_outside
  intro k member
  have inside := List.mem_range.mp member
  rw [byteAddress_eq roomDst inside]
  rintro rfl
  exact outside (by simp [bytes, inside])

/-- Into an area behind the source, memcpy repeats the bytes in between. -/
theorem memcpy_within (m : Memory) {dst src size : Nat} (roomDst : dst + size ≤ 2 ^ 32)
    (roomSrc : src + size ≤ 2 ^ 32) {i : Nat} (inside : i < size) :
    (memcpy m dst src size).1 (dst + i) =
      if src < dst then m (src + i % (dst - src)) else m (src + i) := by
  rw [memcpy_moves]
  by_cases behind : src < dst
  · rw [if_pos behind]
    obtain ⟨d, rfl⟩ := Nat.exists_eq_add_of_lt behind
    have cells : (byteAddress (src + d + 1)) = fun k => byteAddress src (k + (d + 1)) := by
      funext k
      unfold byteAddress
      congr 1
      omega
    have apart : ∀ j, j < size + (d + 1) → ∀ k, k < size + (d + 1) →
        byteAddress src j = byteAddress src k → j = k := by
      intro j hj k hk same
      unfold byteAddress at same
      rw [wrap_eq (by omega), wrap_eq (by omega)] at same
      omega
    have copied := moves_repeat (byteAddress src) size apart m (k := i + (d + 1)) (by omega)
    have here : byteAddress src (i + (d + 1)) = src + d + 1 + i := by
      unfold byteAddress
      rw [wrap_eq (by omega)]
      omega
    have below : i % (d + 1) < d + 1 := Nat.mod_lt _ (Nat.succ_pos d)
    have from_ : byteAddress src (i % (d + 1)) = src + i % (d + 1) := wrap_eq (by omega)
    rw [here, Nat.add_mod_right, from_] at copied
    rw [cells, copied]
    congr 3
    omega
  · rw [if_neg behind]
    have unspoiled := up_unspoiled roomDst roomSrc (Nat.le_of_not_lt behind)
    rw [← List.range_eq_range'] at unspoiled
    have copied := moves_inside _ _ unspoiled m (List.mem_range.mpr inside)
    rwa [byteAddress_eq roomDst inside, byteAddress_eq roomSrc inside] at copied

/-- memcpy does the same as memmove exactly when the destination does not begin
inside the source, or the source repeats its bytes up to there. -/
theorem memcpy_agrees (m : Memory) (dst src size : Nat) (roomDst : dst + size ≤ 2 ^ 32)
    (roomSrc : src + size ≤ 2 ^ 32) : (memcpy m dst src size).1 = (memmove m dst src size).1 ↔
      (src < dst → ∀ i, i < size → m (src + i) = m (src + i % (dst - src))) := by
  obtain ⟨moved, kept⟩ := memmove_copies m dst src size roomDst roomSrc
  constructor
  · intro same behind i inside
    have copied := memcpy_within m roomDst roomSrc inside
    rw [same, moved i inside, if_pos behind] at copied
    exact copied
  · intro periodic
    funext a
    by_cases inside : a ∈ bytes dst size
    · obtain ⟨low, high⟩ := inside
      obtain ⟨i, rfl⟩ := Nat.exists_eq_add_of_le low
      rw [memcpy_within m roomDst roomSrc (by omega), moved i (by omega)]
      split
      · rename_i behind
        exact (periodic behind i (by omega)).symm
      · rfl
    · rw [memcpy_elsewhere m roomDst inside, kept a inside]

/-- Two bytes behind, a text that repeats every two bytes is copied, and one that does not is not. -/
theorem memcpy_agrees_two_behind :
    (memcpy (fun a => BitVec.ofNat 8 (a % 2)) 2 0 6).1 = (memmove (fun a => BitVec.ofNat 8 (a % 2)) 2 0 6).1 ∧
    (memcpy (fun a => BitVec.ofNat 8 a) 2 0 6).1 ≠ (memmove (fun a => BitVec.ofNat 8 a) 2 0 6).1 := by
  constructor
  · refine (memcpy_agrees _ 2 0 6 (by decide) (by decide)).mpr fun _ i _ => ?_
    rw [Nat.zero_add, Nat.zero_add, Nat.sub_zero, Nat.mod_mod]
  · intro same
    have period := (memcpy_agrees _ 2 0 6 (by decide) (by decide)).mp same (by decide) 2 (by decide)
    revert period
    decide

theorem memset_apply (m : Memory) (buf : Nat) (value : Int) (size : Nat) (room : buf + size ≤ 2 ^ 32)
    (a : Nat) : (memset m buf value size).1 a =
      if buf ≤ a ∧ a < buf + size then BitVec.ofInt 8 value else m a :=
  fillBytes_apply room m a

/-- The `count` bytes from `p[i]` on. -/
def area (m : Memory) (p count i : Nat) : List (BitVec 8) :=
  (List.range' i count).map (window m p)

theorem area_succ (m : Memory) (p count i : Nat) :
    area m p (count + 1) i = window m p i :: area m p count (i + 1) := rfl

/-- memcmp orders areas as texts are ordered, by the first byte that differs. -/
theorem memcmpLoop_orders (m : Memory) (a b count i : Nat) :
    (memcmpLoop m a b count i = -1 ↔ area m a count i < area m b count i) ∧
    (memcmpLoop m a b count i = 1 ↔ area m b count i < area m a count i) ∧
    (memcmpLoop m a b count i = 0 ↔ area m a count i = area m b count i) := by
  induction count generalizing i with
  | zero => simp [memcmpLoop, area]
  | succ count ih =>
    obtain ⟨less, more, same⟩ := ih (i + 1)
    have cellA : m (wrap (a + i)) = window m a i := rfl
    have cellB : m (wrap (b + i)) = window m b i := rfl
    rw [memcmpLoop, cellA, cellB, area_succ, area_succ, List.cons_lt_cons_iff, List.cons_lt_cons_iff,
      List.cons_eq_cons]
    generalize window m a i = x
    generalize window m b i = y
    simp only [BitVec.lt_def, ← BitVec.toNat_inj]
    rcases Nat.lt_trichotomy x.toNat y.toNat with below | equal | above
    · simp [below, below.ne, below.ne', below.le.not_gt]
    · simp [equal, less, more, same]
    · simp [above, above.ne, above.ne', above.le.not_gt]

theorem memcmp_orders (m : Memory) (a b size : Nat) :
    (memcmp m a b size = -1 ↔ area m a size 0 < area m b size 0) ∧
    (memcmp m a b size = 1 ↔ area m b size 0 < area m a size 0) ∧
    (memcmp m a b size = 0 ↔ area m a size 0 = area m b size 0) :=
  memcmpLoop_orders m a b size 0

end RiseOS
