import Mathlib.Data.Set.Insert
import RiseOS.Paging.Effects
import RiseOS.Kernel.Liballoc

/-! The page hooks as liballoc calls them: chunks above each other, all below
the heap's end, with no addition that wraps. -/
namespace RiseOS
open Words

def chunkSet (calls : List HookCall) : Set (Nat × Nat) :=
  { c | ∃ pages, (c.1, pages) ∈ outstanding calls ∧ c.2 = regionSize pages }

/-- No request up to HEAP_SIZE ends between a `heap_end` below 2^31 and an
address that is negative as an int, or beyond 2^32. -/
def SignSafe (heapEnd : Nat) : Prop :=
  heapEnd + heapSize < 2 ^ 31 ∨ 2 ^ 31 ≤ heapEnd ∧ heapEnd + heapSize < 2 ^ 32

/-- `heap_cur` stays whole pages below `heap_end`. -/
structure Limits (v : Vmm) : Prop where
  aligned : v.heapCur % 4096 = v.heapEnd % 4096
  below : v.heapCur + 4096 ≤ v.heapEnd
  room : SignSafe v.heapEnd

theorem heapSize_eq : heapSize = 0x400000 := by decide

theorem SignSafe.fits {heapEnd : Nat} (h : SignSafe heapEnd) : heapEnd + 0x400000 < 2 ^ 32 := by
  have size := heapSize_eq
  unfold SignSafe at h
  omega

theorem regionSize_nat {pages : Nat} (few : pages ≤ 1025) : regionSize pages = 4096 * pages := by
  unfold regionSize ofInt pageSize
  omega

theorem chunkSet_refused (calls : List HookCall) (pages : Int) :
    chunkSet (calls ++ [.refused pages]) = chunkSet calls := by
  simp [chunkSet, HookCall.apply]

theorem chunkSet_alloc (calls : List HookCall) {pages : Nat} (few : pages ≤ 1025) {rez : Nat}
    (chunk : rez ≠ 0) : chunkSet (calls ++ [.alloc pages rez]) =
      insert (rez, 4096 * pages) (chunkSet calls) := by
  ext ⟨base, size⟩
  simp only [chunkSet, outstanding_snoc, HookCall.apply, if_neg chunk, Set.mem_ofPred_eq,
    List.mem_cons, Prod.mk.injEq, Set.mem_insert_iff]
  constructor
  · rintro ⟨p, ⟨rfl, rfl⟩ | old, rfl⟩
    · exact .inl ⟨rfl, regionSize_nat few⟩
    · exact .inr ⟨p, old, rfl⟩
  · rintro (⟨rfl, rfl⟩ | ⟨p, old, rfl⟩)
    · exact ⟨pages, .inl ⟨rfl, rfl⟩, (regionSize_nat few).symm⟩
    · exact ⟨p, .inr old, rfl⟩

theorem chunkSet_null (calls : List HookCall) (pages : Int) :
    chunkSet (calls ++ [.alloc pages 0]) = chunkSet calls := by
  simp [chunkSet, HookCall.apply]

theorem mem_chunkSet_alloc {calls : List HookCall} {pages : Nat} (few : pages ≤ 1025) {rez : Nat}
    {c : Nat × Nat} (member : c ∈ chunkSet (calls ++ [.alloc pages rez])) :
    c = (rez, 4096 * pages) ∨ c ∈ chunkSet calls := by
  by_cases null : rez = 0
  · rw [null, chunkSet_null] at member
    exact .inr member
  · rwa [chunkSet_alloc calls few null] at member

theorem chunkSet_free (calls : List HookCall) (ptr : Nat) (pages : Int) :
    chunkSet (calls ++ [.free ptr pages]) = { c ∈ chunkSet calls | c.1 ≠ ptr } := by
  ext ⟨base, size⟩
  simp only [chunkSet, outstanding_snoc, HookCall.apply, Set.mem_ofPred_eq, List.mem_filter,
    decide_eq_true_iff]
  constructor
  · rintro ⟨p, ⟨old, other⟩, rfl⟩
    exact ⟨⟨p, old, rfl⟩, other⟩
  · rintro ⟨⟨p, old, rfl⟩, other⟩
    exact ⟨p, ⟨old, other⟩, rfl⟩

def ChunkBelow (cur : Nat) (c : Nat × Nat) : Prop :=
  c.1 + c.2 ≤ cur ∧ ∃ pages, 16 ≤ pages ∧ pages ≤ 1025 ∧ c.2 = 4096 * pages

theorem neededPages_enough (usage : Nat) :
    16 ≤ neededPages usage ∧ usage ≤ 4096 * neededPages usage := by
  unfold neededPages libPageSize libPageCount
  dsimp only
  split <;> split <;> omega

theorem neededPages_few {usage : Nat} (small : usage ≤ 0x400020) : neededPages usage ≤ 1025 := by
  unfold neededPages libPageSize libPageCount
  dsimp only
  split <;> split <;> omega

/-- A request whose header fits a word, and whose pages the hook refuses or may
hand out. -/
def Honest (v : Vmm) (size : Nat) : Prop :=
  32 + size < 2 ^ 32 ∧ (neededPages (32 + size) ≤ 1025 ∨ v.refuses (neededPages (32 + size)))

theorem honest_of_small (v : Vmm) {size : Nat} (small : size ≤ heapSize) : Honest v size := by
  rw [heapSize_eq] at small
  exact ⟨by omega, .inl (neededPages_few (by omega))⟩

theorem neededPages_whole {pages : Nat} (least : 16 ≤ pages) : neededPages (4096 * pages) = pages := by
  unfold neededPages libPageSize libPageCount
  dsimp only
  split <;> split <;> omega

theorem accepted_fits {v : Vmm} (limits : Limits v) {pages : Nat} (few : pages ≤ 1025)
    (accepted : ¬ v.refuses pages) : v.heapCur + 4096 * pages < v.heapEnd := by
  obtain ⟨aligned, below, room⟩ := limits
  have top := room.fits
  have size := heapSize_eq
  have sum : wrap (regionSize pages + v.heapCur) = v.heapCur + 4096 * pages := by
    rw [regionSize_nat few, Nat.add_comm]
    exact wrap_eq (by omega)
  unfold Vmm.refuses at accepted
  rw [sum] at accepted
  unfold SignSafe at room
  unfold signed at accepted
  split at accepted <;> split at accepted <;> omega

theorem liballocAlloc_outcome (v : Vmm) (limits : Limits v) {pages : Nat}
    (few : pages ≤ 1025 ∨ v.refuses pages) : ∃ v', v'.heapEnd = v.heapEnd ∧
      (v.liballocAlloc pages = some (v', 0) ∧ v'.heapCur = v.heapCur ∧
        v'.calls = v.calls ++ [.refused pages] ∨
       pages ≤ 1025 ∧ v.liballocAlloc pages = some (v', v.heapCur) ∧
        v'.heapCur = v.heapCur + 4096 * pages ∧ v'.heapCur < v.heapEnd ∧
        v'.calls = v.calls ++ [.alloc pages v.heapCur]) := by
  have top := limits.room.fits
  have inside := limits.below
  have word : v.heapCur < 2 ^ 32 := by omega
  by_cases refused : v.refuses pages
  · rw [liballocAlloc_eq v pages word, if_pos refused]
    refine ⟨_, ?_, .inl ⟨rfl, rfl, rfl⟩⟩
    rfl
  · replace few := few.resolve_right refused
    have fits := accepted_fits limits few refused
    have sum : wrap (v.heapCur + regionSize pages) = v.heapCur + 4096 * pages := by
      rw [regionSize_nat few]
      exact wrap_eq (by omega)
    obtain ⟨v', call, _, stop, cur, calls⟩ :=
      liballocAlloc_returns v pages word refused (by rw [sum]; omega)
    rw [sum] at cur
    exact ⟨v', stop, .inr ⟨few, call, cur, by omega, calls⟩⟩

theorem liballocAlloc_grows (v : Vmm) (limits : Limits v) {pages : Nat}
    (few : pages ≤ 1025 ∨ v.refuses pages) : ∃ v' r,
      v.liballocAlloc pages = some (v', r) ∧ Limits v' ∧ v'.heapEnd = v.heapEnd ∧
      v.heapCur ≤ v'.heapCur ∧
      (r = 0 ∧ chunkSet v'.calls = chunkSet v.calls ∨
       r ≠ 0 ∧ pages ≤ 1025 ∧ r = v.heapCur ∧ v'.heapCur = v.heapCur + 4096 * pages ∧
        chunkSet v'.calls = insert (r, 4096 * pages) (chunkSet v.calls)) := by
  obtain ⟨v', stop, outcome⟩ := liballocAlloc_outcome v limits few
  obtain ⟨aligned, below, room⟩ := limits
  rcases outcome with ⟨call, cur, calls⟩ | ⟨few, call, cur, fits, calls⟩
  · refine ⟨v', 0, call, ⟨by omega, by omega, stop ▸ room⟩, stop, Nat.le_of_eq cur.symm, .inl ⟨rfl, ?_⟩⟩
    rw [calls]
    exact chunkSet_refused _ _
  · refine ⟨v', v.heapCur, call, ⟨by omega, by omega, stop ▸ room⟩, stop, by omega, ?_⟩
    rw [calls]
    by_cases zero : v.heapCur = 0
    · rw [zero]
      exact .inl ⟨rfl, chunkSet_null _ _⟩
    · exact .inr ⟨zero, few, rfl, cur, chunkSet_alloc _ few zero⟩

theorem liballocFree_drops (v : Vmm) (limits : Limits v) {ptr pages : Nat} (few : pages ≤ 1025)
    (inside : ptr + 4096 * pages ≤ v.heapCur) :
    ∃ v' r, v.liballocFree ptr pages = some (v', r) ∧ Limits v' ∧ v'.heapCur = v.heapCur ∧
      v'.heapEnd = v.heapEnd ∧ chunkSet v'.calls = { c ∈ chunkSet v.calls | c.1 ≠ ptr } := by
  obtain ⟨aligned, below, room⟩ := limits
  have top := room.fits
  have sum : wrap (ptr + regionSize pages) = ptr + 4096 * pages := by
    rw [regionSize_nat few]
    exact wrap_eq (by omega)
  obtain ⟨v', call, _, stop, cur, calls⟩ :=
    liballocFree_returns v ptr pages (by omega) (by rw [sum]; omega)
  refine ⟨v', 1, call, ⟨by omega, by omega, by rw [stop]; exact room⟩, cur, stop, ?_⟩
  rw [calls]
  exact chunkSet_free _ _ _

end RiseOS
