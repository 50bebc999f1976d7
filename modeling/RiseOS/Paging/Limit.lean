import RiseOS.Paging.Effects

/-! The heap limit of liballoc_alloc. Its test reads two wrapped words as signed
ints, and the byte size is itself a product that wraps. -/
namespace RiseOS
open Words

/-- A chunk ends at or below `heap_end`; a refusal changes nothing and means that
the chunk would have reached `heap_end`. The sums are integers, not words. -/
structure RespectsLimit (s : Vmm) (pages : Int) (t : Vmm) (r : Nat) : Prop where
  granted : r ≠ 0 → r = s.heapCur ∧ r + pages * 4096 ≤ s.heapEnd ∧ t.heapCur = r + pages * 4096
  refused : r = 0 → t.heapCur = s.heapCur ∧ t.dir = s.dir ∧ t.entries = s.entries ∧
    s.heapEnd ≤ s.heapCur + pages * 4096

/-- Page 0 has no table, a table made now would be at NULL, and the slot and the bytes
there are already what it would leave. -/
structure Vmm.TableAtNull (s : Vmm) : Prop where
  missing : s.dir.tables 0 = 0
  null : s.newTable = 0
  slot : tableEntry (s.dir.tablesPhysical 0) 0 = s.dir.tablesPhysical 0
  first : s.entries 0 = mappedEntry Page.zero (s.pmm.dumballoc sizeofPageTable).1.kallocPageFrame.2
  rest : ∀ a, a ≠ 0 → wsub a 0 < 1024 * sizeofPageTable → s.entries a = Page.zero

/-- The chunk fits and the signs of its end and of `heap_end` agree; or it does
not fit and its end, reduced to a word, compares as if it had not been reduced;
or the heap is at NULL, the size wraps to nothing and page 0 is present, or its table
would be at NULL too. -/
def ComparesRight (s : Vmm) (pages : Int) : Prop :=
  let stop : Int := s.heapCur + pages * 4096
  s.heapCur ≠ 0 ∧ stop < s.heapEnd ∧ (2 ^ 31 ≤ s.heapEnd → 2 ^ 31 ≤ stop) ∨
  s.heapEnd ≤ stop ∧ s.heapEnd < 2 ^ 31 ∧ s.heapEnd ≤ stop % 2 ^ 32 ∧ stop % 2 ^ 32 < 2 ^ 31 ∨
  s.heapEnd ≤ stop ∧ 2 ^ 31 ≤ s.heapEnd ∧ (stop % 2 ^ 32 < 2 ^ 31 ∨ s.heapEnd ≤ stop % 2 ^ 32) ∨
  s.heapCur = 0 ∧ stop % 2 ^ 32 = 0 ∧ (PagePresent s 0 ∨ s.TableAtNull)

section FirstTable

variable {s : Vmm} (missing : s.dir.tables 0 = 0) (null : s.newTable = 0)
include missing null

theorem firstTable_dir : (s.createTable 0).dir = s.dir ↔
    tableEntry (s.dir.tablesPhysical 0) 0 = s.dir.tablesPhysical 0 := by
  have tables : (s.createTable 0).dir.tables = s.dir.tables := by
    rw [createTable_tables, null]
    exact Function.update_eq_self_iff.mpr missing.symm
  have physical := createTable_physical s 0
  rw [null] at physical
  have made : (s.createTable 0).dir = ⟨s.dir.tables,
      Function.update s.dir.tablesPhysical 0 (tableEntry (s.dir.tablesPhysical 0) 0)⟩ := by
    rw [← tables, ← physical]
  have slot : Function.update s.dir.tablesPhysical 0 (tableEntry (s.dir.tablesPhysical 0) 0) =
      s.dir.tablesPhysical ↔ tableEntry (s.dir.tablesPhysical 0) 0 = s.dir.tablesPhysical 0 :=
    Function.update_eq_self_iff
  rw [made, ← slot]
  exact ⟨congrArg PageDirectory.tablesPhysical, congrArg (PageDirectory.mk s.dir.tables)⟩

omit missing in
theorem firstTable_cleared (a : Nat) : (s.createTable 0).entries a =
    if wsub a 0 < 1024 * sizeofPageTable then Page.zero else s.entries a := by
  rw [createTable_entries, null]

omit missing in
theorem firstTable_entries : ((s.createTable 0).mapPage 0 0).entries = s.entries ↔
    s.entries 0 = mappedEntry Page.zero (s.pmm.dumballoc sizeofPageTable).1.kallocPageFrame.2 ∧
      ∀ a, a ≠ 0 → wsub a 0 < 1024 * sizeofPageTable → s.entries a = Page.zero := by
  have first : (s.createTable 0).page 0 0 = Page.zero :=
    (firstTable_cleared null 0).trans (if_pos (by decide))
  have cell : pageAddress 0 0 = 0 := rfl
  rw [mapPage_entries, createTable_pmm, first, cell, Function.update_eq_iff]
  refine and_congr eq_comm (forall_congr' fun a => forall_congr' fun _ => ?_)
  rw [firstTable_cleared null]
  split
  · rename_i inside
    exact ⟨fun same _ => same.symm, fun zero => (zero inside).symm⟩
  · rename_i outside
    exact iff_of_true rfl fun inside => absurd inside outside

end FirstTable

/-- allocate_page(0) changes no table and no entry just when page 0 is present, or in the
corner of a table at NULL. -/
theorem firstPage_kept (s : Vmm) :
    (s.allocatePage 0).dir = s.dir ∧ (s.allocatePage 0).entries = s.entries ↔
      PagePresent s 0 ∨ s.TableAtNull := by
  have index : pagedirIndex 0 = 0 := rfl
  rw [allocatePage_eq, index]
  by_cases missing : s.dir.tables 0 = 0
  · have made : s.withTable 0 = s.createTable 0 := if_pos missing
    have absent : ¬ PagePresent s 0 := fun present => present.1 missing
    rw [made, or_iff_right absent]
    have dir : (if ((s.createTable 0).entryOf 0).present then s.createTable 0
        else (s.createTable 0).mapPage ((s.createTable 0).dir.tables 0) (pagetblIndex 0)).dir =
          (s.createTable 0).dir := by
      split <;> rfl
    have own := createTable_own s 0
    by_cases null : s.newTable = 0
    · have absent : ((s.createTable 0).entryOf 0).present = false := by
        rw [Vmm.entryOf, index, own, null, Vmm.page, firstTable_cleared null]
        rfl
      rw [dir, firstTable_dir missing null, absent, if_neg Bool.false_ne_true, own, null]
      have entries := firstTable_entries null
      constructor
      · rintro ⟨slot, kept⟩
        obtain ⟨first, rest⟩ := entries.mp kept
        exact ⟨missing, null, slot, first, rest⟩
      · rintro ⟨_, _, slot, first, rest⟩
        exact ⟨slot, entries.mpr ⟨first, rest⟩⟩
    · refine iff_of_false (fun kept => null ?_) fun corner => null corner.null
      rw [← own, ← dir, kept.1, missing]
  · have there : s.withTable 0 = s := if_neg missing
    have apart : ¬ s.TableAtNull := fun corner => missing corner.missing
    rw [there, or_iff_left apart]
    by_cases present : (s.entryOf 0).present = true
    · rw [if_pos present]
      exact iff_of_true ⟨rfl, rfl⟩ ⟨missing, present⟩
    · rw [if_neg present]
      refine iff_of_false (fun kept => present ?_) fun first => present first.2
      have cell := congrFun kept.2 (pageAddress (s.dir.tables 0) (pagetblIndex 0))
      rw [mapPage_entries, Function.update_self] at cell
      exact congrArg Page.present cell.symm

section Request

variable (s : Vmm) (pages : Int)

theorem chunkEnd_reduced :
    (wrap (s.heapCur + regionSize pages) : Int) = (s.heapCur + pages * 4096) % 2 ^ 32 := by
  unfold regionSize ofInt pageSize wrap
  omega

variable (word : s.heapEnd < 2 ^ 32)
include word

theorem refuses_iff : s.refuses pages ↔
    s.heapEnd < 2 ^ 31 ∧ s.heapEnd ≤ (s.heapCur + pages * 4096) % 2 ^ 32 ∧
      (s.heapCur + pages * 4096) % 2 ^ 32 < 2 ^ 31 ∨
    2 ^ 31 ≤ s.heapEnd ∧ ((s.heapCur + pages * 4096) % 2 ^ 32 < 2 ^ 31 ∨
      s.heapEnd ≤ (s.heapCur + pages * 4096) % 2 ^ 32) := by
  have reduced := chunkEnd_reduced s pages
  have low := wrap_lt (s.heapCur + regionSize pages)
  unfold Vmm.refuses
  rw [Nat.add_comm (regionSize pages)]
  generalize wrap (s.heapCur + regionSize pages) = stop at reduced low
  rw [← reduced]
  unfold signed
  split <;> split <;> omega

theorem refused_compares (inside : s.heapCur ≤ s.heapEnd) (least : 1 ≤ pages)
    (refused : s.refuses pages) :
    ComparesRight s pages ↔ s.heapEnd ≤ s.heapCur + pages * 4096 := by
  have regions := (refuses_iff s pages word).mp refused
  unfold ComparesRight
  dsimp only
  constructor
  · rintro (⟨_, below, sign⟩ | ⟨reached, _⟩ | ⟨reached, _⟩ | ⟨null, zero, _⟩)
    · omega
    · exact reached
    · exact reached
    · omega
  · intro reached
    rcases regions with ⟨positive, region⟩ | ⟨negative, region⟩
    · exact .inr (.inl ⟨reached, positive, region⟩)
    · exact .inr (.inr (.inl ⟨reached, negative, region⟩))

theorem granted_compares (least : 1 ≤ pages) (accepted : ¬ s.refuses pages)
    (node : s.heapCur ≠ 0) :
    ComparesRight s pages ↔ s.heapCur + pages * 4096 ≤ s.heapEnd := by
  have regions := mt (refuses_iff s pages word).mpr accepted
  unfold ComparesRight
  dsimp only
  constructor
  · rintro (⟨_, below, _⟩ | ⟨_, positive, region⟩ | ⟨_, negative, region⟩ | ⟨null, _⟩)
    · omega
    · exact absurd (.inl ⟨positive, region⟩) regions
    · exact absurd (.inr ⟨negative, region⟩) regions
    · exact absurd null node
  · intro fits
    exact .inl ⟨node, by omega, by omega⟩

theorem null_compares (accepted : ¬ s.refuses pages) (null : s.heapCur = 0) :
    ComparesRight s pages ↔ (s.heapCur + pages * 4096) % 2 ^ 32 = 0 ∧
      (s.allocatePage 0).dir = s.dir ∧ (s.allocatePage 0).entries = s.entries := by
  rw [firstPage_kept]
  have regions := mt (refuses_iff s pages word).mpr accepted
  unfold ComparesRight
  dsimp only
  constructor
  · rintro (⟨node, _⟩ | ⟨_, positive, region⟩ | ⟨_, negative, region⟩ | ⟨_, corner⟩)
    · exact absurd null node
    · exact absurd (.inl ⟨positive, region⟩) regions
    · exact absurd (.inr ⟨negative, region⟩) regions
    · exact corner
  · intro corner
    exact .inr (.inr (.inr ⟨null, corner⟩))

end Request

/-- liballoc_alloc respects the heap limit just where its comparison of wrapped
signed words is the comparison of the integers. -/
theorem limit_respected_iff (s : Vmm) (pages : Int) (inside : s.heapCur ≤ s.heapEnd)
    (word : s.heapEnd < 2 ^ 32) (least : 1 ≤ pages) {t : Vmm} {r : Nat}
    (call : s.liballocAlloc pages = some (t, r)) :
    RespectsLimit s pages t r ↔ ComparesRight s pages := by
  have reduced := chunkEnd_reduced s pages
  rw [liballocAlloc_eq s pages (by omega)] at call
  by_cases refused : s.refuses pages
  · rw [if_pos refused] at call
    obtain ⟨rfl, rfl⟩ := Prod.mk.inj (Option.some.inj call)
    rw [refused_compares s pages word inside least refused]
    constructor
    · intro kept
      exact (kept.refused rfl).2.2.2
    · intro reached
      exact ⟨fun more => absurd rfl more, fun _ => ⟨rfl, rfl, rfl, reached⟩⟩
  · rw [if_neg refused] at call
    split at call
    · generalize wrap (s.heapCur + regionSize pages) = stop at reduced call
      obtain ⟨rfl, rfl⟩ := Prod.mk.inj (Option.some.inj call)
      by_cases null : s.heapCur = 0
      · rw [null_compares s pages word refused null]
        constructor
        · intro kept
          obtain ⟨cur, dir, entries, _⟩ := kept.refused null
          have zero : stop = 0 := cur.trans null
          rw [zero, null] at dir entries
          exact ⟨by omega, dir, entries⟩
        · rintro ⟨zero, dir, entries⟩
          obtain rfl : stop = 0 := by omega
          refine ⟨fun node => absurd null node, fun _ => ?_⟩
          rw [null]
          exact ⟨rfl, dir, entries, by omega⟩
      · rw [granted_compares s pages word least refused null]
        constructor
        · intro kept
          exact (kept.granted null).2.1
        · intro fits
          refine ⟨fun _ => ⟨rfl, fits, ?_⟩, fun zero => absurd zero null⟩
          dsimp only
          omega
    · cases call

/-- 2^20 pages are no bytes at all in a word: the hook returns a chunk of 4 GiB. -/
theorem size_wraps_to_nothing : ∃ t, oneMapping.liballocAlloc 0x100000 = some (t, 0x301400) ∧
    ¬ RespectsLimit oneMapping 0x100000 t 0x301400 := by
  obtain ⟨t, call, _⟩ := liballocAlloc_returns oneMapping 0x100000 (by decide) (by decide) (by decide)
  refine ⟨t, call, fun kept => ?_⟩
  have fits := (kept.granted (by decide)).2.1
  exact absurd fits (by decide)

theorem sixteen_pages_respected : ∃ t r, oneMapping.liballocAlloc 16 = some (t, r) ∧
    (RespectsLimit oneMapping 16 t r ↔ ComparesRight oneMapping 16) := by
  obtain ⟨t, call, _⟩ := liballocAlloc_returns oneMapping 16 (by decide) (by decide) (by decide)
  exact ⟨t, _, call, limit_respected_iff oneMapping 16 (by decide) (by decide) (by decide) call⟩

end RiseOS
