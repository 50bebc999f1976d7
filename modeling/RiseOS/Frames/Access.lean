import RiseOS.Kernel.Vmm
import RiseOS.Frames.Accounting

/-! Which words of the bitmap each operation of pmm.c reads or writes.
The lists follow the code; a word is in the list exactly when the operation
does not let it pass through unread and unchanged. -/
namespace RiseOS
open Words

/-- The word that SETBIT(i), CLEARBIT(i) and ISSET(i) access. -/
def wordOf (i : Nat) : Nat := i / blocksPerBucket

def scanWords (bitmap : Bitmap) : (count i : Nat) → List Nat
  | 0, _ => []
  | count + 1, i => wordOf i :: if isset bitmap i then scanWords bitmap count (i + 1) else []

def Pmm.kallocPageFrameWords (s : Pmm) : List Nat := scanWords s.bitmap frameLimit 0

def Pmm.kallocPageFrameAtWords (_ : Pmm) (addr : Nat) : List Nat := [wordOf (blockAlign addr)]

def Pmm.kfreePageFrameWords (s : Pmm) (addr : Nat) : List Nat :=
  let addr := wsub addr s.placementaddr
  if addr = 0 then [wordOf addr] else [wordOf (addr / 0x1000)]

def markWords (placementaddr : Nat) : (fuel i : Nat) → List Nat
  | 0, _ => []
  | fuel + 1, i =>
      if i < placementaddr then wordOf i :: markWords placementaddr fuel (wrap (i + pageSize))
      else []

def Pmm.pmmInitWords (s : Pmm) (bitmapAt : Nat) : List Nat :=
  List.range bitmapSize ++ markWords (initPlacement s.placementaddr bitmapAt) markFuel 0

/-- The state in which word `w` of the bitmap, or of what lies behind it, holds `v`. -/
def Pmm.withWord (s : Pmm) (w : Nat) (v : BitVec 32) : Pmm :=
  { s with bitmap := Function.update s.bitmap w v }

/-! ### The lists are right -/

theorem isset_update (bitmap : Bitmap) {w i : Nat} (v : BitVec 32) (other : w ≠ wordOf i) :
    isset (Function.update bitmap w v) i = isset bitmap i := by
  have word : i / blocksPerBucket ≠ w := fun h => other h.symm
  rw [isset, Function.update_of_ne word, isset]

theorem isset_update_zero (bitmap : Bitmap) {w i : Nat} (word : wordOf i = w) :
    isset (Function.update bitmap w 0#32) i = false := by
  rw [isset_getLsbD, show i / 8 = w from word, Function.update_self]
  simp

theorem isset_update_ones (bitmap : Bitmap) {w i : Nat} (word : wordOf i = w) :
    isset (Function.update bitmap w (BitVec.allOnes 32)) i = true := by
  have low : i % 8 < 32 := by omega
  rw [isset_getLsbD, show i / 8 = w from word, Function.update_self]
  rw [BitVec.getLsbD_allOnes]
  exact decide_eq_true low

theorem setbit_update (bitmap : Bitmap) {w i : Nat} (v : BitVec 32) (other : w ≠ wordOf i) :
    setbit (Function.update bitmap w v) i = Function.update (setbit bitmap i) w v := by
  have word : i / blocksPerBucket ≠ w := fun h => other h.symm
  rw [setbit, Function.update_of_ne word, Function.update_comm (fun h => word h.symm), setbit]

theorem clearbit_update (bitmap : Bitmap) {w i : Nat} (v : BitVec 32) (other : w ≠ wordOf i) :
    clearbit (Function.update bitmap w v) i = Function.update (clearbit bitmap i) w v := by
  have word : i / blocksPerBucket ≠ w := fun h => other h.symm
  rw [clearbit, Function.update_of_ne word, Function.update_comm (fun h => word h.symm), clearbit]

theorem findClear_untouched (bitmap : Bitmap) (w : Nat) (v : BitVec 32) (count i : Nat)
    (outside : w ∉ scanWords bitmap count i) :
    findClear (Function.update bitmap w v) count i = findClear bitmap count i := by
  induction count generalizing i with
  | zero => rfl
  | succ count ih =>
    rw [scanWords, List.mem_cons, not_or] at outside
    obtain ⟨here, later⟩ := outside
    rw [findClear, findClear, isset_update bitmap v here]
    split
    · rename_i set
      rw [if_pos set] at later
      exact ih (i + 1) later
    · rfl

/-- The scanned words are those of the frames that have only set bits before them. -/
theorem mem_scanWords (bitmap : Bitmap) (count i w : Nat) :
    w ∈ scanWords bitmap count i ↔ ∃ k, i ≤ k ∧ k < i + count ∧ wordOf k = w ∧
      ∀ j, i ≤ j → j < k → isset bitmap j = true := by
  induction count generalizing i with
  | zero =>
    simp only [scanWords, List.not_mem_nil, false_iff]
    rintro ⟨k, lower, upper, _⟩
    omega
  | succ count ih =>
    rw [scanWords, List.mem_cons]
    constructor
    · rintro (rfl | later)
      · exact ⟨i, Nat.le_refl i, by omega, rfl, fun j hi hk => by omega⟩
      · split at later
        · rename_i set
          obtain ⟨k, lower, upper, word, before⟩ := (ih (i + 1)).mp later
          refine ⟨k, by omega, by omega, word, fun j hi hk => ?_⟩
          by_cases first : j = i
          · exact first ▸ set
          · exact before j (by omega) hk
        · cases later
    · rintro ⟨k, lower, upper, word, before⟩
      by_cases first : k = i
      · exact .inl (by rw [← word, first])
      · rw [if_pos (before i (Nat.le_refl i) (by omega))]
        exact .inr ((ih (i + 1)).mpr
          ⟨k, by omega, by omega, word, fun j hi hk => before j (by omega) hk⟩)

/-- What kalloc_page_frame reads and sets lies before all that pmm_init's placementaddr
makes room for, the heap among it. -/
theorem scan_before_placement (s : Pmm) {bitmapAt w : Nat} (room : bitmapAt + 0x26000 < 2 ^ 32)
    (scanned : w ∈ s.kallocPageFrameWords) : bitmapAt + 4 * w + 4 ≤ initPlacement 0 bitmapAt := by
  obtain ⟨k, _, upper, rfl, _⟩ := (mem_scanWords s.bitmap frameLimit 0 w).mp scanned
  have small : wordOf k < 35072 := by
    unfold frameLimit at upper
    unfold wordOf blocksPerBucket
    omega
  have stop : wrap (bitmapAt + 4 * (bitmapSize + pageSize)) = bitmapAt + 0x24000 :=
    wrap_eq (n := bitmapAt + 0x24000) (by omega)
  rw [initPlacement, if_pos rfl, stop, blockAlign_eq (by omega), wrap_eq (by omega)]
  omega

theorem findClear_scanned {bitmap : Bitmap} {k : Nat}
    (found : findClear bitmap frameLimit 0 = some k) :
    wordOf k ∈ scanWords bitmap frameLimit 0 := by
  obtain ⟨lower, upper, _, before⟩ := findClear_some bitmap frameLimit 0 k found
  exact (mem_scanWords bitmap frameLimit 0 _).mpr ⟨k, lower, upper, rfl, before⟩

theorem kallocPageFrame_of_found {s : Pmm} {i : Nat}
    (found : findClear s.bitmap frameLimit 0 = some i) : s.kallocPageFrame =
      ({ s with bitmap := setbit s.bitmap i }, frameAddress s.placementaddr i) := by
  simp only [Pmm.kallocPageFrame, found]

/-- With a scanned word zero the search ends at the word's first frame. -/
theorem findClear_zeroed {bitmap : Bitmap} {w : Nat} (accessed : w ∈ scanWords bitmap frameLimit 0) :
    8 * w < frameLimit ∧
      findClear (Function.update bitmap w 0#32) frameLimit 0 = some (8 * w) := by
  obtain ⟨k, _, upper, rfl, before⟩ := (mem_scanWords bitmap frameLimit 0 w).mp accessed
  have first : 8 * wordOf k ≤ k := by
    unfold wordOf blocksPerBucket
    omega
  refine ⟨by omega, findClear_eq _ _ _ (by omega) (isset_update_zero bitmap ?_) fun j hj => ?_⟩
  · unfold wordOf blocksPerBucket
    omega
  · have other : wordOf k ≠ wordOf j := by
      unfold wordOf blocksPerBucket at hj ⊢
      omega
    rw [isset_update bitmap 0#32 other]
    exact before j (Nat.zero_le j) (by omega)

/-- kalloc_page_frame ignores a word exactly when its scan does not come to it. -/
theorem kallocPageFrame_untouched_iff (s : Pmm) (w : Nat) :
    w ∉ s.kallocPageFrameWords ↔ ∀ v, (s.withWord w v).kallocPageFrame =
      (s.kallocPageFrame.1.withWord w v, s.kallocPageFrame.2) := by
  constructor
  · intro outside v
    have search := findClear_untouched s.bitmap w v frameLimit 0 outside
    unfold Pmm.kallocPageFrame
    cases found : findClear s.bitmap frameLimit 0 with
    | none => simp only [Pmm.withWord, search, found, Pmm.qemuPrintf]
    | some k =>
      have other : w ≠ wordOf k := fun h => outside (h ▸ findClear_scanned found)
      simp only [Pmm.withWord, search, found, setbit_update s.bitmap v other]
  · intro ignored accessed
    obtain ⟨inside, zeroed⟩ := findClear_zeroed accessed
    have first : s.kallocPageFrame.2 = frameAddress s.placementaddr (8 * w) := by
      have result := congrArg Prod.snd (ignored 0#32)
      simp only [Pmm.kallocPageFrame, Pmm.withWord, zeroed] at result
      exact result.symm
    have result := congrArg Prod.snd (ignored (BitVec.allOnes 32))
    rcases kallocPageFrame_cases (s.withWord w (BitVec.allOnes 32)) with
      ⟨m, hm, clear, _, _, taken⟩ | ⟨_, _, failed⟩
    · rw [taken, first] at result
      have same : m = 8 * w := frameAddress_inj hm inside result
      have set : isset (s.withWord w (BitVec.allOnes 32)).bitmap m = true :=
        isset_update_ones s.bitmap (by unfold wordOf blocksPerBucket; omega)
      rw [set] at clear
      cases clear
    · rw [failed, first] at result
      exact frameAddress_ne_noFrame _ _ result.symm

theorem setPageReserved_untouched (s : Pmm) (addr w : Nat) (v : BitVec 32) (flag : Bool)
    (other : w ≠ wordOf addr) :
    (s.withWord w v).setPageReserved addr flag = (s.setPageReserved addr flag).withWord w v := by
  unfold Pmm.setPageReserved
  rw [show isset (s.withWord w v).bitmap addr = isset s.bitmap addr from
    isset_update s.bitmap v other]
  split
  · simp only [Pmm.withWord, setbit_update s.bitmap v other]
  · simp only [Pmm.withWord, clearbit_update s.bitmap v other]

theorem kallocPageFrameAt_untouched_iff (s : Pmm) (addr w : Nat) :
    w ∉ s.kallocPageFrameAtWords addr ↔ ∀ v, (s.withWord w v).kallocPageFrameAt addr =
      ((s.kallocPageFrameAt addr).1.withWord w v, (s.kallocPageFrameAt addr).2) := by
  rw [Pmm.kallocPageFrameAtWords, List.mem_singleton]
  constructor
  · intro other v
    unfold Pmm.kallocPageFrameAt
    dsimp only
    rw [show isset (s.withWord w v).bitmap (blockAlign addr) = isset s.bitmap (blockAlign addr) from
      isset_update s.bitmap v other]
    split
    · rw [setPageReserved_untouched s _ w v true other]
    · rfl
  · intro ignored same
    have result := congrArg (fun r => isset r.1.bitmap (blockAlign addr)) (ignored 0#32)
    have clear : isset (s.withWord w 0#32).bitmap (blockAlign addr) = false :=
      isset_update_zero s.bitmap same.symm
    have kept : isset ((s.kallocPageFrameAt addr).1.withWord w 0#32).bitmap (blockAlign addr) =
        false := isset_update_zero _ same.symm
    rw [kept] at result
    simp [Pmm.kallocPageFrameAt, Pmm.setPageReserved, clear, isset_setbit] at result

theorem kfreePageFrameWords_eq (s : Pmm) (addr : Nat) :
    s.kfreePageFrameWords addr = [wordOf (wsub addr s.placementaddr / 4096)] := by
  unfold Pmm.kfreePageFrameWords
  by_cases zero : wsub addr s.placementaddr = 0
  · simp [zero]
  · simp [zero]

theorem kfreePageFrame_untouched_iff (s : Pmm) (addr w : Nat) :
    w ∉ s.kfreePageFrameWords addr ↔ ∀ v,
      (s.withWord w v).kfreePageFrame addr = (s.kfreePageFrame addr).withWord w v := by
  rw [kfreePageFrameWords_eq, List.mem_singleton]
  constructor
  · intro other v
    rw [kfreePageFrame_eq, kfreePageFrame_eq]
    simp only [Pmm.withWord, clearbit_update s.bitmap v other]
  · intro ignored same
    have result := congrArg (fun t => isset t.bitmap (wsub addr s.placementaddr / 4096))
      (ignored (BitVec.allOnes 32))
    have set : isset ((s.kfreePageFrame addr).withWord w (BitVec.allOnes 32)).bitmap
        (wsub addr s.placementaddr / 4096) = true := isset_update_ones _ same.symm
    rw [set, kfreePageFrame_eq] at result
    simp [isset_clearbit, Pmm.withWord] at result

theorem markLoop_untouched (placementaddr w : Nat) (v : BitVec 32) (fuel i : Nat) (bitmap : Bitmap)
    (outside : w ∉ markWords placementaddr fuel i) :
    markLoop placementaddr fuel i (Function.update bitmap w v) =
      (markLoop placementaddr fuel i bitmap).map (fun marked => Function.update marked w v) := by
  induction fuel generalizing i bitmap with
  | zero => rfl
  | succ fuel ih =>
    rw [markLoop, markLoop]
    rw [markWords] at outside
    split
    · rename_i below
      rw [if_pos below, List.mem_cons, not_or] at outside
      rw [setbit_update bitmap v outside.1]
      exact ih _ _ outside.2
    · rfl

theorem pmmInit_untouched (s : Pmm) (bitmapAt w : Nat) (v : BitVec 32)
    (outside : w ∉ s.pmmInitWords bitmapAt) :
    (s.withWord w v).pmmInit bitmapAt = (s.pmmInit bitmapAt).map (fun t => t.withWord w v) := by
  rw [Pmm.pmmInitWords, List.mem_append, not_or, List.mem_range] at outside
  obtain ⟨behind, unmarked⟩ := outside
  have zeroed : (fun k => if k < bitmapSize then 0#32 else (s.withWord w v).bitmap k) =
      Function.update (fun k => if k < bitmapSize then 0#32 else s.bitmap k) w v := by
    funext k
    by_cases here : k = w
    · rw [here, Function.update_self, if_neg behind]
      exact Function.update_self _ _ _
    · simp only [Pmm.withWord, Function.update_of_ne here]
  have marked := markLoop_untouched _ w v markFuel 0
    (fun k => if k < bitmapSize then 0#32 else s.bitmap k) unmarked
  simp only [Pmm.pmmInit, zeroed, Pmm.qemuPrintf]
  rw [show (s.withWord w v).placementaddr = s.placementaddr from rfl, marked]
  cases markLoop (initPlacement s.placementaddr bitmapAt) markFuel 0
    (fun k => if k < bitmapSize then 0#32 else s.bitmap k) <;> rfl

/-! ### The search is exact as long as the array has a clear bit -/

theorem setbit_getLsbD (bitmap : Bitmap) (i w k : Nat) (low : k < 32) :
    (setbit bitmap i w).getLsbD k =
      (decide (w = wordOf i ∧ k = i % blocksPerBucket) || (bitmap w).getLsbD k) := by
  by_cases word : w = wordOf i
  · subst word
    simp [setbit, wordOf, low]
    grind
  · have other : w ≠ i / blocksPerBucket := word
    simp [setbit, other, word]

/-- What the search owes: accesses inside the array, the lowest clear bit taken
and no other bit changed, and failure exactly on a full array. -/
structure SearchExact (s : Pmm) : Prop where
  inside : ∀ w ∈ s.kallocPageFrameWords, w < bitmapSize
  lowest : (∃ i, i < bitmapSize * blocksPerBucket ∧ isset s.bitmap i = false) →
    ∃ i, i < bitmapSize * blocksPerBucket ∧ isset s.bitmap i = false ∧
      (∀ j, j < i → isset s.bitmap j = true) ∧
      (∀ w k, k < 32 → ((s.kallocPageFrame.1.bitmap w).getLsbD k =
        (decide (w = wordOf i ∧ k = i % blocksPerBucket) || (s.bitmap w).getLsbD k))) ∧
      s.kallocPageFrame.2 = frameAddress s.placementaddr i ∧ s.kallocPageFrame.2 % pageSize = 0
  exhausted : (s.kallocPageFrame.2 = noFrame ∧ s.kallocPageFrame.1.bitmap = s.bitmap) ↔
    ∀ i, i < bitmapSize * blocksPerBucket → isset s.bitmap i = true

theorem frameAddress_aligned (placementaddr i : Nat) :
    frameAddress placementaddr i % pageSize = 0 := by
  rw [frameAddress_mod, pageSize]
  omega

/-- On a full array the search goes on in the words behind it. -/
theorem full_array_scanned (s : Pmm)
    (full : ∀ i, i < bitmapSize * blocksPerBucket → isset s.bitmap i = true) :
    bitmapSize ∈ s.kallocPageFrameWords := by
  refine (mem_scanWords s.bitmap frameLimit 0 bitmapSize).mpr
    ⟨bitmapSize * blocksPerBucket, Nat.zero_le _, by decide, by decide, fun j _ hj => full j hj⟩

theorem search_exact_iff (s : Pmm) :
    SearchExact s ↔ ∃ i, i < bitmapSize * blocksPerBucket ∧ isset s.bitmap i = false := by
  constructor
  · intro exact_
    by_contra none
    have full : ∀ i, i < bitmapSize * blocksPerBucket → isset s.bitmap i = true := by
      intro i hi
      by_contra clear
      exact none ⟨i, hi, Bool.eq_false_iff.mpr clear⟩
    exact Nat.lt_irrefl _ (exact_.inside bitmapSize (full_array_scanned s full))
  · rintro ⟨m, hm, free⟩
    have array : bitmapSize * blocksPerBucket < frameLimit := by decide
    rcases kallocPageFrame_cases s with ⟨i, hi, clear, before, found, result⟩ | ⟨full, _, _⟩
    · have inside : i < bitmapSize * blocksPerBucket := by
        by_contra beyond
        rw [before m (by omega)] at free
        cases free
      refine ⟨?_, fun _ => ⟨i, inside, clear, before, ?_, ?_, ?_⟩, ?_⟩
      · intro w accessed
        obtain ⟨k, _, _, rfl, set⟩ := (mem_scanWords s.bitmap frameLimit 0 w).mp accessed
        have upto : k ≤ i := by
          by_contra later
          rw [set i (Nat.zero_le i) (by omega)] at clear
          cases clear
        unfold wordOf blocksPerBucket bitmapSize at *
        omega
      · intro w k low
        rw [result]
        exact setbit_getLsbD s.bitmap i w k low
      · rw [result]
      · rw [result]
        exact frameAddress_aligned _ _
      · constructor
        · rintro ⟨failed, _⟩
          rw [result] at failed
          exact absurd failed (frameAddress_ne_noFrame _ _)
        · intro full
          rw [full i inside] at clear
          cases clear
    · rw [full m (by omega)] at free
      cases free

/-- Every frame of the array is taken; the words behind it are zero. -/
def fullArray : Pmm :=
  ⟨0x200000, fun w => if w < bitmapSize then 0xFF#32 else 0#32, []⟩

theorem fullArray_isset (i : Nat) :
    isset fullArray.bitmap i = decide (i < bitmapSize * blocksPerBucket) := by
  have ones : ∀ k, k < 8 → (0xFF#32).getLsbD k = true := by decide
  rw [isset_getLsbD]
  by_cases inside : i / 8 < bitmapSize
  · have frame : i < bitmapSize * blocksPerBucket := by
      unfold bitmapSize blocksPerBucket at *
      omega
    simp only [fullArray, if_pos inside, ones (i % 8) (by omega), frame, decide_true]
  · have frame : ¬ i < bitmapSize * blocksPerBucket := by
      unfold bitmapSize blocksPerBucket at *
      omega
    simp only [fullArray, if_neg inside, frame, decide_false, BitVec.getLsbD_zero]

/-- With the whole array taken a frame is handed out all the same, and a bit of
the word behind the array is set. -/
theorem full_array_not_exact :
    ¬ SearchExact fullArray ∧ fullArray.kallocPageFrame.2 = 0x40201000 ∧
      fullArray.kallocPageFrame.1.bitmap bitmapSize ≠ fullArray.bitmap bitmapSize := by
  have set : ∀ i, i < bitmapSize * blocksPerBucket → isset fullArray.bitmap i = true := by
    intro i hi
    rw [fullArray_isset]
    exact decide_eq_true hi
  have found : findClear fullArray.bitmap frameLimit 0 = some (bitmapSize * blocksPerBucket) :=
    findClear_eq _ _ _ (by decide) (by rw [fullArray_isset]; exact decide_eq_false (by decide)) set
  refine ⟨fun ok => Nat.lt_irrefl _ (ok.inside _ (full_array_scanned fullArray set)), ?_, ?_⟩
  · rw [kallocPageFrame_of_found found, frameAddress_mod]
    decide +kernel
  · rw [kallocPageFrame_of_found found]
    decide +kernel

/-! ### Accesses by address -/

def Inside (accessed : List Nat) : Prop := ∀ w ∈ accessed, w < bitmapSize

/-- The four operations with their arguments: the free of free_page gets the
frame field of an entry. -/
structure AccessesInside (s : Pmm) (bitmapAt addr : Nat) (entry : Page) : Prop where
  init : Inside (s.pmmInitWords bitmapAt)
  reserve : Inside (s.kallocPageFrameAtWords addr)
  free : Inside (s.kfreePageFrameWords addr)
  freePage : Inside (s.kfreePageFrameWords entry.frame.toNat)

theorem mem_markWords {placementaddr : Nat} (word : placementaddr < 2 ^ 32) (fuel i k : Nat)
    (below : i + k * 4096 < placementaddr) (rounds : k < fuel) :
    wordOf (i + k * 4096) ∈ markWords placementaddr fuel i := by
  induction fuel generalizing i k with
  | zero => omega
  | succ fuel ih =>
    rw [markWords, if_pos (by omega)]
    cases k with
    | zero => exact List.mem_cons_self
    | succ k =>
      have small : i + 4096 < 2 ^ 32 := by omega
      have next : wrap (i + pageSize) = i + 4096 := wrap_eq small
      have later := ih (i + 4096) k (by omega) (by omega)
      rw [next, show i + (k + 1) * 4096 = i + 4096 + k * 4096 by omega]
      exact List.mem_cons_of_mem _ later

theorem pmmInit_not_inside (s : Pmm) (bitmapAt : Nat) (linked : 0x100000 ≤ s.placementaddr)
    (word : s.placementaddr < 2 ^ 32) : ¬ Inside (s.pmmInitWords bitmapAt) := by
  intro inside
  have given : initPlacement s.placementaddr bitmapAt = s.placementaddr := if_neg (by omega)
  have marked := mem_markWords word markFuel 0 64 (by omega) (by unfold markFuel; omega)
  have member : wordOf (0 + 64 * 4096) ∈ s.pmmInitWords bitmapAt := by
    rw [Pmm.pmmInitWords, given]
    exact List.mem_append_right _ marked
  exact absurd (inside _ member) (by decide)

theorem kallocPageFrameAt_inside_iff (s : Pmm) (addr : Nat) (word : addr < 2 ^ 32)
    (linked : 0x100000 ≤ addr) :
    Inside (s.kallocPageFrameAtWords addr) ↔ 0xFFFFF000 ≤ addr := by
  simp only [Inside, Pmm.kallocPageFrameAtWords, List.forall_mem_singleton]
  rw [blockAlign_eq word]
  unfold wordOf blocksPerBucket bitmapSize wrap
  omega

theorem kfreePageFrame_inside_iff (s : Pmm) (addr : Nat) :
    Inside (s.kfreePageFrameWords addr) ↔ wsub addr s.placementaddr < 2 ^ 30 := by
  simp only [Inside, kfreePageFrameWords_eq, List.forall_mem_singleton]
  unfold wordOf blocksPerBucket bitmapSize
  omega

/-- Each operation's own condition. -/
theorem bitmap_accesses_leave_array (s : Pmm) (bitmapAt addr : Nat) (entry : Page)
    (linked : 0x100000 ≤ s.placementaddr) (word : s.placementaddr < 2 ^ 32)
    (above : s.placementaddr ≤ addr) (wordAddr : addr < 2 ^ 32) :
    ¬ AccessesInside s bitmapAt addr entry ∧
    ¬ Inside (s.pmmInitWords bitmapAt) ∧
    (Inside (s.kallocPageFrameAtWords addr) ↔ 0xFFFFF000 ≤ addr) ∧
    (Inside (s.kfreePageFrameWords addr) ↔ addr < s.placementaddr + 2 ^ 30) ∧
    (Inside (s.kfreePageFrameWords entry.frame.toNat) ↔
      2 ^ 32 + entry.frame.toNat < s.placementaddr + 2 ^ 30) := by
  have field : entry.frame.toNat < 2 ^ 20 := entry.frame.isLt
  have init := pmmInit_not_inside s bitmapAt linked word
  refine ⟨fun all => init all.init, init,
    kallocPageFrameAt_inside_iff s addr wordAddr (by omega), ?_, ?_⟩
  · rw [kfreePageFrame_inside_iff, wsub_eq wordAddr above]
    omega
  · rw [kfreePageFrame_inside_iff]
    simp only [wsub, wrap]
    omega

/-- The first frame above 2 MiB, and the entry that allocate_page makes with it. -/
theorem first_frame_leaves_array :
    emptyFrames.pmm.kallocPageFrame.2 = 0x201000 ∧
    ¬ AccessesInside emptyFrames.pmm 0x100000 0x201000 (mappedEntry Page.zero 0x201000) ∧
    ¬ Inside (emptyFrames.pmm.kallocPageFrameAtWords 0x201000) := by
  obtain ⟨notAll, _, reserve, _⟩ := bitmap_accesses_leave_array emptyFrames.pmm 0x100000 0x201000
    (mappedEntry Page.zero 0x201000) (by decide) (by decide) (by decide) (by decide)
  exact ⟨by decide +kernel, notAll, fun inside => absurd (reserve.mp inside) (by decide)⟩

/-- The field of that entry is 0x1000: free_page subtracts 2 MiB from it. -/
theorem first_entry_freed_outside :
    emptyFrames.pmm.kfreePageFrameWords (mappedEntry Page.zero 0x201000).frame.toNat = [0x1FFC0] ∧
    ¬ AccessesInside emptyFrames.pmm 0x100000 0x201000 (mappedEntry Page.zero 0x201000) := by
  have words : emptyFrames.pmm.kfreePageFrameWords (mappedEntry Page.zero 0x201000).frame.toNat =
      [0x1FFC0] := by decide +kernel
  refine ⟨words, fun all => ?_⟩
  have inside := all.freePage
  rw [words] at inside
  exact absurd (inside _ (List.mem_singleton.mpr rfl)) (by decide)

end RiseOS
