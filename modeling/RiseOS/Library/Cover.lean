import Mathlib.Data.Finset.Max
import RiseOS.Library.Tiling

/-! Tilings that leave no gap: once every chunk begins with a block, each address of a
chunk lies in exactly one block, and the blocks are the only ones that there can be. -/
namespace Tiling

variable {least : Nat} {chunks : Set (Nat × Nat)} {len left right : Nat → Nat} {T T' : Finset Nat}

theorem Tiled.inner (h : Tiled least chunks len left right T) (least_pos : 0 < least) {t : Nat}
    (ht : t ∈ T) (more : left t ≠ 0) {c : Nat × Nat} (hc : c ∈ chunks) (room : 0 < c.2) : c.1 ≠ t := by
  intro same
  obtain ⟨d, hd, low, high, start, _⟩ := h.inside t ht
  have long := h.long t ht
  obtain rfl := h.same_chunk hc hd (a := t) ⟨by omega, by omega⟩ ⟨low, by omega⟩
  exact more (start.mpr same.symm)

/-- Behind a block that does not reach an address of its chunk there is another one. -/
theorem Tiled.reaches (h : Tiled least chunks len left right T) {c : Nat × Nat} (hc : c ∈ chunks)
    {a : Nat} (below : a < c.1 + c.2) {t : Nat} (ht : t ∈ T) (long : 0 < len t) (low : c.1 ≤ t)
    (past : t + len t ≤ a) : right t ∈ T ∧ right t = t + len t := by
  obtain ⟨d, hd, low', high, _, stop⟩ := h.inside t ht
  obtain rfl := h.same_chunk hc hd (a := t) ⟨low, by omega⟩ ⟨low', by omega⟩
  have more : right t ≠ 0 := by
    intro none
    have := stop.mp none
    omega
  obtain ⟨mem, at_end, _⟩ := h.right_mem t ht more
  exact ⟨mem, at_end⟩

theorem Tiled.partition (h : Tiled least chunks len left right T) (least_pos : 0 < least)
    {c : Nat × Nat} (hc : c ∈ chunks) (base : c.1 ∈ T) {a : Nat} (low : c.1 ≤ a)
    (below : a < c.1 + c.2) : ∃! t, t ∈ T ∧ t ≤ a ∧ a < t + len t := by
  let before := T.filter fun t => c.1 ≤ t ∧ t ≤ a
  have some_before : before.Nonempty := ⟨c.1, by simp [before, base, low]⟩
  obtain ⟨t, mem, last⟩ := Finset.exists_max_image before id some_before
  obtain ⟨ht, lowT, under⟩ := Finset.mem_filter.mp mem
  have long := h.long t ht
  have within : a < t + len t := by
    by_contra past
    obtain ⟨next, at_end⟩ := h.reaches hc below ht (by omega) lowT (by omega)
    have bound := last (right t) (Finset.mem_filter.mpr ⟨next, by omega, by omega⟩)
    dsimp only [id] at bound
    omega
  refine ⟨t, ⟨ht, under, within⟩, ?_⟩
  rintro u ⟨hu, underU, withinU⟩
  by_contra other
  have := h.apart u hu t ht other
  omega

/-- Blocks that tile in the same way are among those of a tiling without gaps. -/
theorem Tiled.unique (h : Tiled least chunks len left right T)
    (h' : Tiled least chunks len left right T') (least_pos : 0 < least)
    (bases : ∀ c ∈ chunks, c.1 ∈ T) : T' ⊆ T := by
  intro t
  induction t using Nat.strongRecOn with
  | ind t ih =>
    intro ht
    by_cases start : left t = 0
    · obtain ⟨c, hc, _, _, at_start, _⟩ := h'.inside t ht
      rw [at_start.mp start]
      exact bases c hc
    · obtain ⟨mem, forth⟩ := h'.left_mem t ht start
      obtain ⟨_, at_end, _⟩ := h'.right_mem (left t) mem (forth.symm ▸ h'.known ht)
      have long := h'.long (left t) mem
      have inside := ih (left t) (by omega) mem
      have onward := (h.right_mem (left t) inside (forth.symm ▸ h'.known ht)).1
      rwa [forth] at onward

end Tiling
