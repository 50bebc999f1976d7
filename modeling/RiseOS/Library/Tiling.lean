import Mathlib.Data.Finset.Basic
import Mathlib.Data.Set.Insert

/-! Blocks that tile chunks of an address space. A block is its address; its
length and its links to the blocks on either side are functions of the address,
zero meaning that there is none: the block then ends at its chunk's border. -/
namespace Tiling

structure Tiled (least : Nat) (chunks : Set (Nat × Nat)) (len left right : Nat → Nat)
    (T : Finset Nat) : Prop where
  nonnull : 0 ∉ T
  long : ∀ t ∈ T, least ≤ len t
  apart : ∀ t ∈ T, ∀ u ∈ T, t ≠ u → t + len t ≤ u ∨ u + len u ≤ t
  right_mem : ∀ t ∈ T, right t ≠ 0 → right t ∈ T ∧ right t = t + len t ∧ left (right t) = t
  left_mem : ∀ t ∈ T, left t ≠ 0 → left t ∈ T ∧ right (left t) = t
  inside : ∀ t ∈ T, ∃ c ∈ chunks, c.1 ≤ t ∧ t + len t ≤ c.1 + c.2 ∧ (left t = 0 ↔ t = c.1) ∧
    (right t = 0 ↔ t + len t = c.1 + c.2)
  chunks_apart : ∀ c ∈ chunks, ∀ d ∈ chunks, c ≠ d → c.1 + c.2 ≤ d.1 ∨ d.1 + d.2 ≤ c.1

variable {least : Nat} {chunks : Set (Nat × Nat)} {len left right len' left' right' : Nat → Nat}
  {T : Finset Nat}

theorem tiled_empty (none : chunks = ∅) : Tiled least chunks len left right ∅ := by
  subst none
  exact ⟨by simp, by simp, by simp, by simp, by simp, by simp, by simp⟩

theorem Tiled.congr (h : Tiled least chunks len left right T) (lens : ∀ t ∈ T, len' t = len t)
    (lefts : ∀ t ∈ T, left' t = left t) (rights : ∀ t ∈ T, right' t = right t) :
    Tiled least chunks len' left' right' T := by
  refine ⟨h.nonnull, ?_, ?_, ?_, ?_, ?_, h.chunks_apart⟩
  · intro t ht
    rw [lens t ht]
    exact h.long t ht
  · intro t ht u hu other
    rw [lens t ht, lens u hu]
    exact h.apart t ht u hu other
  · intro t ht more
    rw [rights t ht] at more ⊢
    obtain ⟨mem, at_end, back⟩ := h.right_mem t ht more
    rw [lefts _ mem, lens t ht]
    exact ⟨mem, at_end, back⟩
  · intro t ht more
    rw [lefts t ht] at more ⊢
    obtain ⟨mem, forth⟩ := h.left_mem t ht more
    rw [rights _ mem]
    exact ⟨mem, forth⟩
  · intro t ht
    rw [lefts t ht, rights t ht, lens t ht]
    exact h.inside t ht

theorem Tiled.same_chunk (h : Tiled least chunks len left right T) {c d : Nat × Nat}
    (hc : c ∈ chunks) (hd : d ∈ chunks) {a : Nat} (inC : c.1 ≤ a ∧ a < c.1 + c.2)
    (inD : d.1 ≤ a ∧ a < d.1 + d.2) : c = d := by
  by_contra other
  have := h.chunks_apart c hc d hd other
  omega

/-! ### Neighbours -/

theorem Tiled.known (h : Tiled least chunks len left right T) {x : Nat} (hx : x ∈ T) : x ≠ 0 :=
  fun zero => h.nonnull (zero ▸ hx)

theorem Tiled.before_right (h : Tiled least chunks len left right T) (least_pos : 0 < least) {x : Nat}
    (hx : x ∈ T) : x ≠ right x := by
  intro same
  have at_end := (h.right_mem x hx (same ▸ h.known hx)).2.1
  have long := h.long x hx
  omega

theorem Tiled.right_inj (h : Tiled least chunks len left right T) {x y : Nat} (hx : x ∈ T) (hy : y ∈ T)
    (more : right x ≠ 0) (same : right x = right y) : x = y := by
  obtain ⟨_, _, backX⟩ := h.right_mem x hx more
  obtain ⟨_, _, backY⟩ := h.right_mem y hy (same ▸ more)
  rw [← backX, same, backY]

theorem Tiled.right_of_left (h : Tiled least chunks len left right T) {x t : Nat} (hx : x ∈ T)
    (more : left x ≠ 0) (here : left x = t) : x = right t := by
  rw [← here, (h.left_mem x hx more).2]

theorem Tiled.fresh (h : Tiled least chunks len left right T) (least_pos : 0 < least) {t u : Nat}
    (ht : t ∈ T) (behind : t < u) (before : u < t + len t) : u ∉ T := by
  intro hu
  have longU := h.long u hu
  have := h.apart t ht u hu (by omega)
  omega

/-! ### A block takes its right neighbour in -/

section Merge

variable (h : Tiled least chunks len left right T) (least_pos : 0 < least) {t u : Nat}
  (ht : t ∈ T) (next : right t = u) (more : u ≠ 0)
  (lens : ∀ x ∈ T, x ≠ u → len' x = if x = t then len t + len u else len x)
  (lefts : ∀ x ∈ T, x ≠ u → left' x = if x = right u then t else left x)
  (rights : ∀ x ∈ T, x ≠ u → right' x = if x = t then right u else right x)
include h least_pos ht next more

theorem Tiled.neighbour : u ∈ T ∧ u = t + len t ∧ left u = t ∧ t ≠ u := by
  subst next
  obtain ⟨hu, at_end, back⟩ := h.right_mem t ht more
  exact ⟨hu, at_end, back, h.before_right least_pos ht⟩

theorem Tiled.around {x : Nat} (hx : x ∈ T) (otherT : x ≠ t) (otherU : x ≠ u) :
    x + len x ≤ t ∨ u + len u ≤ x := by
  obtain ⟨hu, at_end, _⟩ := h.neighbour least_pos ht next more
  have longX := h.long x hx
  have fromT := h.apart x hx t ht otherT
  have fromU := h.apart x hx u hu otherU
  omega

include lens in
theorem Tiled.merge_apart : ∀ x ∈ T.erase u, ∀ y ∈ T.erase u, x ≠ y →
    x + len' x ≤ y ∨ y + len' y ≤ x := by
  intro x hx y hy otherXY
  obtain ⟨otherX, memX⟩ := Finset.mem_erase.mp hx
  obtain ⟨otherY, memY⟩ := Finset.mem_erase.mp hy
  obtain ⟨_, at_end, _⟩ := h.neighbour least_pos ht next more
  rw [lens x memX otherX, lens y memY otherY]
  by_cases hereX : x = t
  · have hereY : y ≠ t := fun e => otherXY (hereX.trans e.symm)
    have := h.around least_pos ht next more memY hereY otherY
    rw [if_pos hereX, if_neg hereY]
    omega
  · rw [if_neg hereX]
    by_cases hereY : y = t
    · have := h.around least_pos ht next more memX hereX otherX
      rw [if_pos hereY]
      omega
    · rw [if_neg hereY]
      exact h.apart x memX y memY otherXY

include lens lefts rights in
theorem Tiled.merge_right : ∀ x ∈ T.erase u, right' x ≠ 0 →
    right' x ∈ T.erase u ∧ right' x = x + len' x ∧ left' (right' x) = x := by
  intro x hx moreX
  obtain ⟨otherX, memX⟩ := Finset.mem_erase.mp hx
  obtain ⟨hu, at_end, back, _⟩ := h.neighbour least_pos ht next more
  rw [rights x memX otherX] at moreX ⊢
  rw [lens x memX otherX]
  by_cases hereX : x = t
  · rw [if_pos hereX] at moreX ⊢
    obtain ⟨memR, endR, _⟩ := h.right_mem u hu moreX
    have otherR : right u ≠ u := (h.before_right least_pos hu).symm
    rw [lefts _ memR otherR, if_pos rfl, if_pos hereX, hereX]
    exact ⟨Finset.mem_erase.mpr ⟨otherR, memR⟩, by omega, rfl⟩
  · rw [if_neg hereX] at moreX ⊢
    obtain ⟨memR, endR, backR⟩ := h.right_mem x memX moreX
    have otherR : right x ≠ u := fun e => hereX (by rw [← backR, e, back])
    have apartR : right x ≠ right u := fun e => otherX (h.right_inj memX hu moreX e)
    rw [lefts _ memR otherR, if_neg apartR, if_neg hereX]
    exact ⟨Finset.mem_erase.mpr ⟨otherR, memR⟩, endR, backR⟩

include lefts rights in
theorem Tiled.merge_left : ∀ x ∈ T.erase u, left' x ≠ 0 →
    left' x ∈ T.erase u ∧ right' (left' x) = x := by
  intro x hx moreX
  obtain ⟨otherX, memX⟩ := Finset.mem_erase.mp hx
  obtain ⟨_, _, _, self⟩ := h.neighbour least_pos ht next more
  rw [lefts x memX otherX] at moreX ⊢
  by_cases hereX : x = right u
  · rw [if_pos hereX, rights t ht self, if_pos rfl]
    exact ⟨Finset.mem_erase.mpr ⟨self, ht⟩, hereX.symm⟩
  · rw [if_neg hereX] at moreX ⊢
    obtain ⟨memL, forthL⟩ := h.left_mem x memX moreX
    have otherL : left x ≠ u := fun e => hereX (h.right_of_left memX moreX e)
    have apartL : left x ≠ t := fun e => otherX ((h.right_of_left memX moreX e).trans next)
    rw [rights _ memL otherL, if_neg apartL]
    exact ⟨Finset.mem_erase.mpr ⟨otherL, memL⟩, forthL⟩

include lens lefts rights in
theorem Tiled.merge_inside_self : ∃ c ∈ chunks, c.1 ≤ t ∧ t + len' t ≤ c.1 + c.2 ∧
    (left' t = 0 ↔ t = c.1) ∧ (right' t = 0 ↔ t + len' t = c.1 + c.2) := by
  obtain ⟨hu, at_end, _, self⟩ := h.neighbour least_pos ht next more
  have longT := h.long t ht
  have longU := h.long u hu
  -- the two halves lie in one chunk, since the left one has a right neighbour
  obtain ⟨c, hc, lowC, highC, startC, endC⟩ := h.inside t ht
  obtain ⟨d, hd, lowD, highD, startD, endD⟩ := h.inside u hu
  have inner : t + len t ≠ c.1 + c.2 := fun e => more (next.symm.trans (endC.mpr e))
  have same : c = d := h.same_chunk hc hd (a := u) ⟨by omega, by omega⟩ ⟨by omega, by omega⟩
  have behind : t ≠ right u := by
    intro wrapped
    have := (h.right_mem u hu (wrapped ▸ h.known ht)).2.1
    omega
  refine ⟨c, hc, lowC, ?_, ?_, ?_⟩
  · rw [lens t ht self, if_pos rfl, same]
    omega
  · rw [lefts t ht self, if_neg behind]
    exact startC
  · rw [rights t ht self, if_pos rfl, lens t ht self, if_pos rfl, endD, same]
    omega

include lens lefts rights in
theorem Tiled.merge_inside : ∀ x ∈ T.erase u, ∃ c ∈ chunks, c.1 ≤ x ∧ x + len' x ≤ c.1 + c.2 ∧
    (left' x = 0 ↔ x = c.1) ∧ (right' x = 0 ↔ x + len' x = c.1 + c.2) := by
  intro x hx
  obtain ⟨otherX, memX⟩ := Finset.mem_erase.mp hx
  obtain ⟨hu, _⟩ := h.neighbour least_pos ht next more
  by_cases hereX : x = t
  · rw [hereX]
    exact h.merge_inside_self least_pos ht next more lens lefts rights
  · obtain ⟨c, hc, lowC, highC, startC, endC⟩ := h.inside x memX
    refine ⟨c, hc, lowC, ?_, ?_, ?_⟩
    · rw [lens x memX otherX, if_neg hereX]
      exact highC
    · rw [lefts x memX otherX]
      by_cases behind : x = right u
      · have left_u := (h.right_mem u hu (behind ▸ h.known memX)).2.2
        rw [if_pos behind, ← startC, behind, left_u]
        exact ⟨fun e => absurd e (h.known ht), fun e => absurd e more⟩
      · rw [if_neg behind]
        exact startC
    · rw [rights x memX otherX, if_neg hereX, lens x memX otherX, if_neg hereX]
      exact endC

include lens lefts rights in
theorem Tiled.merge : Tiled least chunks len' left' right' (T.erase u) := by
  refine ⟨?_, ?_, h.merge_apart least_pos ht next more lens,
    h.merge_right least_pos ht next more lens lefts rights,
    h.merge_left least_pos ht next more lefts rights,
    h.merge_inside least_pos ht next more lens lefts rights, h.chunks_apart⟩
  · exact fun mem => h.nonnull (Finset.mem_of_mem_erase mem)
  · intro x hx
    obtain ⟨other, mem⟩ := Finset.mem_erase.mp hx
    have longX := h.long x mem
    have longT := h.long t ht
    rw [lens x mem other]
    split <;> omega

end Merge

/-! ### A block is cut in two -/

section Split

variable (h : Tiled least chunks len left right T) (least_pos : 0 < least) {t u keep : Nat}
  (ht : t ∈ T) (cut : u = t + keep) (front : least ≤ keep) (back : keep + least ≤ len t)
  (lens : ∀ x ∈ T, len' x = if x = t then keep else len x) (lenU : len' u = len t - keep)
  (lefts : ∀ x ∈ T, left' x = if x = right t then u else left x) (leftU : left' u = t)
  (rights : ∀ x ∈ T, right' x = if x = t then u else right x) (rightU : right' u = right t)
include h least_pos ht cut front back

include lens lenU in
theorem Tiled.split_apart : ∀ x ∈ insert u T, ∀ y ∈ insert u T, x ≠ y →
    x + len' x ≤ y ∨ y + len' y ≤ x := by
  have fromU : ∀ y ∈ T, u + len' u ≤ y ∨ y + len' y ≤ u := by
    intro y memY
    rw [lenU, lens y memY]
    by_cases hereY : y = t
    · rw [if_pos hereY]
      omega
    · have := h.apart y memY t ht hereY
      rw [if_neg hereY]
      omega
  have fromT : ∀ y ∈ T, y ≠ t → t + keep ≤ y ∨ y + len y ≤ t := by
    intro y memY hereY
    have := h.apart y memY t ht hereY
    omega
  intro x hx y hy other
  rcases Finset.mem_insert.mp hx with rfl | memX
  · rcases Finset.mem_insert.mp hy with rfl | memY
    · exact absurd rfl other
    · exact fromU y memY
  · rcases Finset.mem_insert.mp hy with rfl | memY
    · exact (fromU x memX).symm
    · rw [lens x memX, lens y memY]
      by_cases hereX : x = t
      · have hereY : y ≠ t := fun e => other (hereX.trans e.symm)
        rw [if_pos hereX, if_neg hereY, hereX]
        exact fromT y memY hereY
      · rw [if_neg hereX]
        by_cases hereY : y = t
        · rw [if_pos hereY, hereY]
          exact (fromT x memX hereX).symm
        · rw [if_neg hereY]
          exact h.apart x memX y memY other

omit front in
include lens lenU lefts leftU rights rightU in
theorem Tiled.split_right : ∀ x ∈ insert u T, right' x ≠ 0 →
    right' x ∈ insert u T ∧ right' x = x + len' x ∧ left' (right' x) = x := by
  intro x hx more
  rcases Finset.mem_insert.mp hx with rfl | mem
  · rw [rightU] at more ⊢
    obtain ⟨memR, endR, _⟩ := h.right_mem t ht more
    rw [lefts _ memR, if_pos rfl, lenU]
    exact ⟨Finset.mem_insert_of_mem memR, by omega, rfl⟩
  · rw [rights x mem] at more ⊢
    rw [lens x mem]
    by_cases here : x = t
    · rw [if_pos here, if_pos here, leftU, here]
      exact ⟨Finset.mem_insert_self u T, cut, rfl⟩
    · rw [if_neg here] at more ⊢
      obtain ⟨memR, endR, backR⟩ := h.right_mem x mem more
      have other : right x ≠ right t := fun e => here (h.right_inj mem ht more e)
      rw [lefts _ memR, if_neg other, if_neg here]
      exact ⟨Finset.mem_insert_of_mem memR, endR, backR⟩

omit least_pos front back in
include lefts leftU rights rightU in
theorem Tiled.split_left : ∀ x ∈ insert u T, left' x ≠ 0 →
    left' x ∈ insert u T ∧ right' (left' x) = x := by
  intro x hx more
  rcases Finset.mem_insert.mp hx with rfl | mem
  · rw [leftU, rights t ht, if_pos rfl]
    exact ⟨Finset.mem_insert_of_mem ht, rfl⟩
  · rw [lefts x mem] at more ⊢
    by_cases here : x = right t
    · rw [if_pos here, rightU]
      exact ⟨Finset.mem_insert_self u T, here.symm⟩
    · rw [if_neg here] at more ⊢
      obtain ⟨memL, forthL⟩ := h.left_mem x mem more
      have other : left x ≠ t := fun e => here (h.right_of_left mem more e)
      rw [rights _ memL, if_neg other]
      exact ⟨Finset.mem_insert_of_mem memL, forthL⟩

include lens lenU lefts leftU rights rightU in
/-- Both halves lie in the chunk of the block. -/
theorem Tiled.split_inside_halves {x : Nat} (half : x = u ∨ x = t) :
    ∃ c ∈ chunks, c.1 ≤ x ∧ x + len' x ≤ c.1 + c.2 ∧
      (left' x = 0 ↔ x = c.1) ∧ (right' x = 0 ↔ x + len' x = c.1 + c.2) := by
  have node := h.known ht
  obtain ⟨c, hc, lowC, highC, startC, endC⟩ := h.inside t ht
  rcases half with rfl | rfl
  · refine ⟨c, hc, by omega, by omega, ?_, ?_⟩
    · rw [leftU]
      exact ⟨fun e => absurd e node, fun e => by omega⟩
    · rw [rightU, lenU, endC]
      omega
  · refine ⟨c, hc, lowC, ?_, ?_, ?_⟩
    · rw [lens x ht, if_pos rfl]
      omega
    · rw [lefts x ht, if_neg (h.before_right least_pos ht)]
      exact startC
    · rw [rights x ht, if_pos rfl, lens x ht, if_pos rfl]
      exact ⟨fun e => by omega, fun e => by omega⟩

include lens lenU lefts leftU rights rightU in
theorem Tiled.split_inside : ∀ x ∈ insert u T, ∃ c ∈ chunks, c.1 ≤ x ∧ x + len' x ≤ c.1 + c.2 ∧
    (left' x = 0 ↔ x = c.1) ∧ (right' x = 0 ↔ x + len' x = c.1 + c.2) := by
  intro x hx
  have halves := fun half : x = u ∨ x = t =>
    h.split_inside_halves least_pos ht cut front back lens lenU lefts leftU rights rightU half
  rcases Finset.mem_insert.mp hx with first | mem
  · exact halves (.inl first)
  · by_cases here : x = t
    · exact halves (.inr here)
    · obtain ⟨d, hd, lowD, highD, startD, endD⟩ := h.inside x mem
      refine ⟨d, hd, lowD, ?_, ?_, ?_⟩
      · rw [lens x mem, if_neg here]
        exact highD
      · rw [lefts x mem]
        by_cases behind : x = right t
        · have left_x := (h.right_mem t ht (behind ▸ h.known mem)).2.2
          have node := h.known ht
          rw [if_pos behind, ← startD, behind, left_x]
          exact ⟨fun e => by omega, fun e => absurd e node⟩
        · rw [if_neg behind]
          exact startD
      · rw [rights x mem, if_neg here, lens x mem, if_neg here]
        exact endD

include lens lenU lefts leftU rights rightU in
theorem Tiled.split : Tiled least chunks len' left' right' (insert u T) := by
  refine ⟨?_, ?_, h.split_apart least_pos ht cut front back lens lenU,
    h.split_right least_pos ht cut back lens lenU lefts leftU rights rightU,
    h.split_left ht cut lefts leftU rights rightU,
    h.split_inside least_pos ht cut front back lens lenU lefts leftU rights rightU, h.chunks_apart⟩
  · rw [Finset.mem_insert, not_or]
    exact ⟨by omega, h.nonnull⟩
  · intro x hx
    rcases Finset.mem_insert.mp hx with rfl | mem
    · omega
    · have longX := h.long x mem
      rw [lens x mem]
      split <;> omega

end Split

/-! ### Chunks come and go -/

theorem Tiled.addChunk (h : Tiled least chunks len left right T) (least_pos : 0 < least)
    {base size : Nat} (node : base ≠ 0) (room : least ≤ size)
    (apart : ∀ d ∈ chunks, d.1 + d.2 ≤ base ∨ base + size ≤ d.1)
    (lens : ∀ x ∈ T, len' x = len x) (lefts : ∀ x ∈ T, left' x = left x)
    (rights : ∀ x ∈ T, right' x = right x)
    (own : len' base = size ∧ left' base = 0 ∧ right' base = 0) :
    base ∉ T ∧ Tiled least (insert (base, size) chunks) len' left' right' (insert base T) := by
  obtain ⟨ownLen, ownLeft, ownRight⟩ := own
  have around : ∀ x ∈ T, x + len x ≤ base ∨ base + size ≤ x := by
    intro x hx
    obtain ⟨d, hd, low, high, _⟩ := h.inside x hx
    have := apart d hd
    omega
  have fresh : base ∉ T := by
    intro mem
    have := around base mem
    have := h.long base mem
    omega
  refine ⟨fresh, ?_, ?_, ?_, ?_, ?_, ?_, ?_⟩
  · rw [Finset.mem_insert, not_or]
    exact ⟨node.symm, h.nonnull⟩
  · intro x hx
    rcases Finset.mem_insert.mp hx with rfl | mem
    · rw [ownLen]
      exact room
    · rw [lens x mem]
      exact h.long x mem
  · intro x hx y hy other
    rcases Finset.mem_insert.mp hx with rfl | memX
    · rcases Finset.mem_insert.mp hy with rfl | memY
      · exact absurd rfl other
      · rw [ownLen, lens y memY]
        exact (around y memY).symm
    · rcases Finset.mem_insert.mp hy with rfl | memY
      · rw [ownLen, lens x memX]
        exact around x memX
      · rw [lens x memX, lens y memY]
        exact h.apart x memX y memY other
  · intro x hx more
    rcases Finset.mem_insert.mp hx with rfl | mem
    · exact absurd ownRight more
    · rw [rights x mem] at more ⊢
      obtain ⟨memR, endR, backR⟩ := h.right_mem x mem more
      rw [lefts _ memR, lens x mem]
      exact ⟨Finset.mem_insert_of_mem memR, endR, backR⟩
  · intro x hx more
    rcases Finset.mem_insert.mp hx with rfl | mem
    · exact absurd ownLeft more
    · rw [lefts x mem] at more ⊢
      obtain ⟨memL, forthL⟩ := h.left_mem x mem more
      rw [rights _ memL]
      exact ⟨Finset.mem_insert_of_mem memL, forthL⟩
  · intro x hx
    rcases Finset.mem_insert.mp hx with rfl | mem
    · refine ⟨(x, size), Set.mem_insert _ _, Nat.le_refl x, ?_, ?_, ?_⟩
      · rw [ownLen]
      · simp [ownLeft]
      · simp [ownRight, ownLen]
    · obtain ⟨d, hd, rest⟩ := h.inside x mem
      rw [lens x mem, lefts x mem, rights x mem]
      exact ⟨d, Set.mem_insert_of_mem _ hd, rest⟩
  · intro c hc d hd other
    rcases Set.mem_insert_iff.mp hc with rfl | oldC
    · rcases Set.mem_insert_iff.mp hd with rfl | oldD
      · exact absurd rfl other
      · exact (apart d oldD).symm
    · rcases Set.mem_insert_iff.mp hd with rfl | oldD
      · exact apart c oldC
      · exact h.chunks_apart c oldC d oldD other

theorem Tiled.whole (h : Tiled least chunks len left right T) {t : Nat} (ht : t ∈ T)
    (noLeft : left t = 0) (noRight : right t = 0) : (t, len t) ∈ chunks := by
  obtain ⟨c, hc, _, _, startC, endC⟩ := h.inside t ht
  have start := startC.mp noLeft
  have stop := endC.mp noRight
  have same : c = (t, len t) := Prod.ext start.symm (show c.2 = len t by omega)
  exact same ▸ hc

theorem Tiled.dropChunk (h : Tiled least chunks len left right T) (least_pos : 0 < least) {t : Nat}
    (ht : t ∈ T) (noLeft : left t = 0) (noRight : right t = 0) {rest : Set (Nat × Nat)}
    (kept : ∀ c ∈ rest, c ∈ chunks) (others : ∀ c ∈ chunks, c.1 ≠ t → c ∈ rest) :
    Tiled least rest len left right (T.erase t) := by
  refine ⟨?_, ?_, ?_, ?_, ?_, ?_, ?_⟩
  · exact fun mem => h.nonnull (Finset.mem_of_mem_erase mem)
  · exact fun x hx => h.long x (Finset.mem_of_mem_erase hx)
  · exact fun x hx y hy => h.apart x (Finset.mem_of_mem_erase hx) y (Finset.mem_of_mem_erase hy)
  · intro x hx more
    obtain ⟨memR, endR, backR⟩ := h.right_mem x (Finset.mem_of_mem_erase hx) more
    refine ⟨Finset.mem_erase.mpr ⟨?_, memR⟩, endR, backR⟩
    intro e
    rw [e, noLeft] at backR
    exact h.nonnull (backR ▸ Finset.mem_of_mem_erase hx)
  · intro x hx more
    obtain ⟨memL, forthL⟩ := h.left_mem x (Finset.mem_of_mem_erase hx) more
    refine ⟨Finset.mem_erase.mpr ⟨?_, memL⟩, forthL⟩
    intro e
    rw [e, noRight] at forthL
    exact h.nonnull (forthL ▸ Finset.mem_of_mem_erase hx)
  · intro x hx
    obtain ⟨other, mem⟩ := Finset.mem_erase.mp hx
    obtain ⟨c, hc, low, high, start, stop⟩ := h.inside x mem
    refine ⟨c, others c hc ?_, low, high, start, stop⟩
    intro e
    -- a block in the chunk of `t` would lie inside `t`
    have whole := h.whole ht noLeft noRight
    have longX := h.long x mem
    have longT := h.long t ht
    have same : c = (t, len t) :=
      h.same_chunk hc whole (a := t) ⟨by omega, by omega⟩ ⟨Nat.le_refl t, by dsimp only; omega⟩
    rw [same] at low high
    dsimp only at low high
    have := h.apart x mem t ht other
    omega
  · exact fun c hc d hd => h.chunks_apart c (kept c hc) d (kept d hd)

end Tiling
