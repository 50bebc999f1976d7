import RiseOS.Kernel.Pmm

/-! The bitmap macros as operations on a set of indices, the search loop as a
least element, and the address arithmetic around a frame index. -/
namespace RiseOS
open Words

theorem isset_getLsbD (bitmap : Bitmap) (i : Nat) :
    isset bitmap i = (bitmap (i / 8)).getLsbD (i % 8) := by
  have mask : ∀ w : BitVec 32, (w &&& 1#32 != 0#32) = w.getLsbD 0 := by
    intro w
    rw [BitVec.and_one_eq_setWidth_ofBool_getLsbD]
    cases w.getLsbD 0 <;> decide
  simp only [isset, blocksPerBucket, mask, BitVec.getLsbD_ushiftRight, Nat.add_zero]

theorem isset_setbit (bitmap : Bitmap) (i j : Nat) :
    isset (setbit bitmap i) j = (decide (j = i) || isset bitmap j) := by
  rw [isset_getLsbD, isset_getLsbD]
  by_cases word : j / 8 = i / 8
  · have bit : j % 8 = i % 8 ↔ j = i := by omega
    have low : j % 8 < 32 := by omega
    simp [setbit, blocksPerBucket, word, ← bit]
    grind
  · have other : j ≠ i := by rintro rfl; exact word rfl
    simp [setbit, blocksPerBucket, word, other]

theorem isset_clearbit (bitmap : Bitmap) (i j : Nat) :
    isset (clearbit bitmap i) j = (decide (j ≠ i) && isset bitmap j) := by
  rw [isset_getLsbD, isset_getLsbD]
  by_cases word : j / 8 = i / 8
  · have bit : j % 8 = i % 8 ↔ j = i := by omega
    have low : j % 8 < 32 := by omega
    simp [clearbit, blocksPerBucket, word, ← bit]
    grind
  · have other : j ≠ i := by rintro rfl; exact word rfl
    simp [clearbit, blocksPerBucket, word, other]

theorem clearbit_setbit {bitmap : Bitmap} {i : Nat} (clear : isset bitmap i = false) :
    clearbit (setbit bitmap i) i = bitmap := by
  rw [isset_getLsbD] at clear
  have word : (bitmap (i / 8) ||| 1#32 <<< (i % 8)) &&& ~~~(1#32 <<< (i % 8)) = bitmap (i / 8) := by
    refine BitVec.eq_of_getLsbD_eq fun k hk => ?_
    by_cases here : k = i % 8
    · rw [here, clear]
      simp
    · have apart : k < i % 8 ∨ k - i % 8 ≠ 0 := by omega
      rcases apart with below | above
      · simp [hk, below]
      · simp [hk, above]
  unfold clearbit setbit blocksPerBucket
  rw [Function.update_self, Function.update_idem, word, Function.update_eq_self]

theorem clearbit_clear {bitmap : Bitmap} {i : Nat} (clear : isset bitmap i = false) :
    clearbit bitmap i = bitmap := by
  rw [isset_getLsbD] at clear
  have word : bitmap (i / 8) &&& ~~~(1#32 <<< (i % 8)) = bitmap (i / 8) := by
    refine BitVec.eq_of_getLsbD_eq fun k hk => ?_
    by_cases here : k = i % 8
    · rw [here, clear]
      simp
    · have apart : k < i % 8 ∨ k - i % 8 ≠ 0 := by omega
      rcases apart with below | above
      · simp [hk, below]
      · simp [hk, above]
  unfold clearbit blocksPerBucket
  rw [word, Function.update_eq_self]

theorem findClear_some (bitmap : Bitmap) (count i k : Nat)
    (found : findClear bitmap count i = some k) :
    i ≤ k ∧ k < i + count ∧ isset bitmap k = false ∧
      ∀ j, i ≤ j → j < k → isset bitmap j = true := by
  induction count generalizing i with
  | zero => cases found
  | succ count ih =>
    unfold findClear at found
    split at found
    · rename_i set
      obtain ⟨lower, upper, clear, before⟩ := ih (i + 1) found
      refine ⟨by omega, by omega, clear, ?_⟩
      intro j hi hk
      by_cases first : j = i
      · exact first ▸ set
      · exact before j (by omega) hk
    · rename_i clear
      cases Option.some.inj found
      exact ⟨Nat.le_refl _, by omega, Bool.eq_false_iff.mpr clear, fun j hi hk => by omega⟩

theorem findClear_none (bitmap : Bitmap) (count i : Nat) :
    findClear bitmap count i = none ↔ ∀ j, i ≤ j → j < i + count → isset bitmap j = true := by
  induction count generalizing i with
  | zero =>
    simp only [findClear, true_iff]
    intro j hi hj
    omega
  | succ count ih =>
    unfold findClear
    split
    · rename_i set
      rw [ih]
      constructor
      · intro rest j hi hj
        by_cases first : j = i
        · exact first ▸ set
        · exact rest j (by omega) (by omega)
      · intro all j hi hj
        exact all j (by omega) (by omega)
    · rename_i clear
      simp only [reduceCtorEq, false_iff]
      intro all
      exact clear (all i (Nat.le_refl i) (by omega))

theorem findClear_eq (bitmap : Bitmap) (count k : Nat) (inside : k < count)
    (clear : isset bitmap k = false) (before : ∀ j, j < k → isset bitmap j = true) :
    findClear bitmap count 0 = some k := by
  cases h : findClear bitmap count 0 with
  | none =>
    have set := (findClear_none bitmap count 0).mp h k (Nat.zero_le k) (by omega)
    rw [set] at clear
    cases clear
  | some m =>
    obtain ⟨_, _, clear', before'⟩ := findClear_some bitmap count 0 m h
    have above : ¬ m < k := by
      intro lt
      rw [before m lt] at clear'
      cases clear'
    have below : ¬ k < m := by
      intro lt
      rw [before' k (Nat.zero_le k) lt] at clear
      cases clear
    exact congrArg some (by omega)

theorem blockAlign_eq {addr : Nat} (h : addr < 2 ^ 32) :
    blockAlign addr = wrap (4096 + addr / 4096 * 4096) := by
  rw [blockAlign, and_pageMask h]

theorem frameAddress_mod (placementaddr i : Nat) :
    frameAddress placementaddr i = (placementaddr / 4096 + i + 1) * 4096 % 2 ^ 32 := by
  unfold frameAddress
  rw [blockAlign_eq (wrap_lt _)]
  simp only [wrap]
  omega

theorem kallocPageFrame_cases (s : Pmm) :
    (∃ i, i < frameLimit ∧ isset s.bitmap i = false ∧ (∀ j, j < i → isset s.bitmap j = true) ∧
      findClear s.bitmap frameLimit 0 = some i ∧
      s.kallocPageFrame = ({ s with bitmap := setbit s.bitmap i }, frameAddress s.placementaddr i)) ∨
    ((∀ i, i < frameLimit → isset s.bitmap i = true) ∧ findClear s.bitmap frameLimit 0 = none ∧
      s.kallocPageFrame = (s.qemuPrintf "Failed to allocate page frame: out of mem!\n", noFrame)) := by
  cases h : findClear s.bitmap frameLimit 0 with
  | some i =>
    obtain ⟨_, upper, clear, before⟩ := findClear_some s.bitmap frameLimit 0 i h
    exact .inl ⟨i, by omega, clear, fun j => before j (Nat.zero_le j), rfl,
      by simp [Pmm.kallocPageFrame, h]⟩
  | none =>
    refine .inr ⟨fun i hi => ?_, rfl, by simp [Pmm.kallocPageFrame, h]⟩
    exact (findClear_none s.bitmap frameLimit 0).mp h i (Nat.zero_le i) (by omega)

theorem kfreePageFrame_eq (s : Pmm) (addr : Nat) :
    s.kfreePageFrame addr =
      { s with bitmap := clearbit s.bitmap (wsub addr s.placementaddr / 4096) } := by
  unfold Pmm.kfreePageFrame
  by_cases zero : wsub addr s.placementaddr = 0
  · simp [zero]
  · simp [zero]

def pageUp (a : Nat) : Nat := (a + 4095) / 4096 * 4096

theorem dumballoc_eq (s : Pmm) (sz : Nat) (h : s.placementaddr < 2 ^ 32)
    (room : pageUp s.placementaddr + sz < 2 ^ 32) :
    s.dumballoc sz =
      ({ s with placementaddr := pageUp s.placementaddr + sz }, pageUp s.placementaddr) := by
  have start : (if s.placementaddr &&& 0xFFF ≠ 0
      then wrap (0x1000 + (s.placementaddr &&& 0xFFFFF000)) else s.placementaddr) =
        pageUp s.placementaddr := by
    rw [and_offsetMask, and_pageMask h]
    unfold pageUp at room ⊢
    split
    · simp only [wrap]
      omega
    · omega
  simp only [Pmm.dumballoc, start, Nat.add_comm sz, wrap_eq room]

end RiseOS
