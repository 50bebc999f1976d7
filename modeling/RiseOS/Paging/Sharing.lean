import Mathlib.Data.List.Nodup
import RiseOS.Paging.Tables

/-! Which frame every page gets in a run of allocate_page, and when two pages
share one. The plan of a run is computed from its addresses alone. -/
namespace RiseOS
open Words

/-- Distinct pages that the processor finds present lie in distinct frames. -/
def NoSharing (s : Vmm) : Prop :=
  ∀ va vb, va < 2 ^ 32 → vb < 2 ^ 32 → va / 4096 ≠ vb / 4096 →
    ∀ pa pb, s.walk va = some pa → s.walk vb = some pb → pa / 4096 ≠ pb / 4096

/-- The frame number of each page that became present, and the directory slots
that got a table on the way. -/
structure FramePlan where
  pages : List (Nat × Nat)
  made : List Nat

def FramePlan.slots (s : Vmm) (plan : FramePlan) (va : Nat) : List Nat :=
  if s.dir.tables (pagedirIndex va) = 0 ∧ pagedirIndex va ∉ plan.made then
    pagedirIndex va :: plan.made
  else plan.made

def placementAfter (placementaddr made : Nat) : Nat :=
  if made = 0 then placementaddr else pageUp placementaddr + 4096 * made

/-- The `k`-th new page gets the `k`-th frame behind `placementaddr`, which each
new table moves up by a page. -/
def FramePlan.add (s : Vmm) (plan : FramePlan) (va : Nat) : FramePlan :=
  if va / 4096 ∈ plan.pages.map Prod.fst then plan
  else ⟨plan.pages ++ [(va / 4096, placementAfter s.pmm.placementaddr (plan.slots s va).length / 4096 +
      plan.pages.length + 1)], plan.slots s va⟩

def framePlan (s : Vmm) (vas : List Nat) : FramePlan := vas.foldl (FramePlan.add s) ⟨[], []⟩

/-- A directory without present entries, an empty bitmap, and room for a table
in every slot and for the 4 MiB that are cleared behind the last of them. -/
structure EmptyDirectory (s : Vmm) : Prop where
  placed : Placed s
  absent : ∀ va, va < 2 ^ 32 → ¬ PagePresent s va
  frames : ∀ i, i < frameLimit → isset s.pmm.bitmap i = false
  positive : 0 < s.pmm.placementaddr
  room : pageUp s.pmm.placementaddr + 0x800000 ≤ 2 ^ 32

structure Follows (s : Vmm) (plan : FramePlan) (t : Vmm) : Prop where
  placed : Placed t
  null : ∀ i, i < 1024 → (t.dir.tables i = 0 ↔ s.dir.tables i = 0 ∧ i ∉ plan.made)
  slots : plan.made.Nodup ∧ ∀ i ∈ plan.made, i < 1024
  moved : t.pmm.placementaddr = placementAfter s.pmm.placementaddr plan.made.length
  bits : ∀ i, i < frameLimit → (isset t.pmm.bitmap i = true ↔ i < plan.pages.length)
  present : ∀ va, va < 2 ^ 32 → (PagePresent t va ↔ va / 4096 ∈ plan.pages.map Prod.fst)
  frames : ∀ va v, va < 2 ^ 32 → (va / 4096, v) ∈ plan.pages →
    (t.entryOf va).frame = BitVec.ofNat 20 (v * 4096)
  keys : (plan.pages.map Prod.fst).Nodup ∧ ∀ p ∈ plan.pages, p.1 < 2 ^ 20

theorem slots_card (made : List Nat) (nodup : made.Nodup) (inside : ∀ i ∈ made, i < 1024) :
    made.length ≤ 1024 := by
  have sub : made ⊆ List.range 1024 := fun i hi => List.mem_range.mpr (inside i hi)
  have count := List.Nodup.length_le_of_subset nodup sub
  rwa [List.length_range] at count

section NewTable

variable {s t : Vmm} {plan : FramePlan}

theorem Follows.pageUp_eq (inv : Follows s plan t) :
    pageUp t.pmm.placementaddr = pageUp s.pmm.placementaddr + 4096 * plan.made.length := by
  have aligned : pageUp s.pmm.placementaddr % 4096 = 0 := by unfold pageUp; omega
  rw [inv.moved, placementAfter]
  split
  · rename_i none
    rw [none]
    omega
  · generalize pageUp s.pmm.placementaddr = a at aligned
    unfold pageUp
    omega

variable (inv : Follows s plan t) {i : Nat} (slot : i < 1024) (null : t.dir.tables i = 0)
include inv slot null

theorem made_lt : plan.made.length < 1024 := by
  have fresh := ((inv.null i slot).mp null).2
  have all := slots_card (i :: plan.made) (List.nodup_cons.mpr ⟨fresh, inv.slots.1⟩)
    (List.forall_mem_cons.mpr ⟨slot, inv.slots.2⟩)
  rw [List.length_cons] at all
  omega

variable (start : EmptyDirectory s)
include start

theorem Follows.tableRoom : TableRoom t := by
  have more := made_lt inv slot null
  have positive := start.positive
  have room := start.room
  have moved := inv.moved
  have up := inv.pageUp_eq
  refine ⟨?_, by omega⟩
  unfold placementAfter pageUp at moved
  split at moved <;> omega

theorem createTable_follows : Follows s ⟨plan.pages, i :: plan.made⟩ (t.createTable i) := by
  have tableRoom := Follows.tableRoom inv slot null start
  have fresh := ((inv.null i slot).mp null)
  obtain ⟨at_end, bumped, _, nonzero⟩ := tableRoom.newTable_eq i
  have moved : (t.createTable i).pmm.placementaddr =
      placementAfter s.pmm.placementaddr (i :: plan.made).length := by
    rw [bumped, at_end, inv.pageUp_eq, placementAfter, if_neg (by simp), List.length_cons]
    omega
  refine ⟨createTable_placed tableRoom.fits inv.placed, ?_, ?_, moved, inv.bits, ?_, ?_, inv.keys⟩
  · intro j hj
    by_cases new : j = i
    · rw [new, createTable_own t i]
      simp [nonzero]
    · rw [createTable_other t i j new, inv.null j hj]
      simp [new]
  · exact ⟨List.nodup_cons.mpr ⟨fresh.2, inv.slots.1⟩,
      List.forall_mem_cons.mpr ⟨slot, inv.slots.2⟩⟩
  · intro va word
    obtain ⟨kept, empty⟩ := createTable_page tableRoom inv.placed.separate va word (i := i)
    rw [← inv.present va word]
    unfold PagePresent
    by_cases new : pagedirIndex va = i
    · rw [empty new, new, null]
      simp
    · rw [createTable_other t i _ new]
      constructor
      · rintro ⟨table, present⟩
        exact ⟨table, kept new table ▸ present⟩
      · rintro ⟨table, present⟩
        exact ⟨table, (kept new table).symm ▸ present⟩
  · intro va v word listed
    have present := (inv.present va word).mpr (List.mem_map.mpr ⟨_, listed, rfl⟩)
    have new : pagedirIndex va ≠ i := by
      intro same
      exact present.1 (same ▸ null)
    rw [(createTable_page tableRoom inv.placed.separate va word).1 new present.1]
    exact inv.frames va v word listed

end NewTable

section NewPage

variable {s t : Vmm} {plan : FramePlan} (inv : Follows s plan t) {va : Nat} (word : va < 2 ^ 32)
  (table : t.dir.tables (pagedirIndex va) ≠ 0) (absent : va / 4096 ∉ plan.pages.map Prod.fst)
  (room : t.pmm.placementaddr < 2 ^ 32) (more : plan.pages.length < frameLimit)
include inv more

theorem next_frame : t.pmm.kallocPageFrame =
    ({ t.pmm with bitmap := setbit t.pmm.bitmap plan.pages.length },
      frameAddress t.pmm.placementaddr plan.pages.length) := by
  rcases kallocPageFrame_cases t.pmm with ⟨i, inside, clear, before, _, result⟩ | ⟨full, _⟩
  · have free : ¬ i < plan.pages.length := fun h => by
      rw [(inv.bits i inside).mpr h] at clear
      cases clear
    have least : ¬ plan.pages.length < i := fun h =>
      absurd ((inv.bits _ more).mp (before _ h)) (Nat.lt_irrefl _)
    rw [result, show i = plan.pages.length from by omega]
  · exact absurd ((inv.bits _ more).mp (full _ more)) (Nat.lt_irrefl _)

include word table room absent

theorem mapPage_follows : Follows s
    ⟨plan.pages ++ [(va / 4096, t.pmm.placementaddr / 4096 + plan.pages.length + 1)], plan.made⟩
    (t.mapPage (t.dir.tables (pagedirIndex va)) (pagetblIndex va)) := by
  have pmm : (t.mapPage (t.dir.tables (pagedirIndex va)) (pagetblIndex va)).pmm =
      { t.pmm with bitmap := setbit t.pmm.bitmap plan.pages.length } := by
    rw [mapPage_pmm, next_frame inv more]
  have entry := mapPage_entry inv.placed.separate room word table
  rw [next_frame inv more] at entry
  refine ⟨⟨inv.placed.coherent, ?_, inv.placed.apart⟩, inv.null, inv.slots, ?_, ?_, ?_, ?_, ?_⟩
  · rw [pmm]
    exact inv.placed.below
  · rw [pmm]
    exact inv.moved
  · intro i inside
    rw [pmm, isset_setbit, Bool.or_eq_true, decide_eq_true_iff, inv.bits i inside,
      List.length_append, List.length_singleton]
    omega
  · intro vb word'
    change t.dir.tables (pagedirIndex vb) ≠ 0 ∧ _ ↔ _
    rw [List.map_append, List.mem_append, ← inv.present vb word', List.map_singleton,
      List.mem_singleton]
    by_cases page : vb / 4096 = va / 4096
    · have tableB : t.dir.tables (pagedirIndex vb) ≠ 0 := (slot_of_page page).1 ▸ table
      rw [entry vb word' tableB, if_pos page]
      simp [tableB, page, mappedEntry]
    · simp only [page, or_false, PagePresent]
      refine and_congr_right ?_
      intro tableB
      rw [entry vb word' tableB, if_neg page]
  · intro vb v word' listed
    rcases List.mem_append.mp listed with old | new
    · have key : vb / 4096 ∈ plan.pages.map Prod.fst := List.mem_map.mpr ⟨_, old, rfl⟩
      have page : vb / 4096 ≠ va / 4096 := fun same => absent (same ▸ key)
      rw [entry vb word' ((inv.present vb word').mpr key).1, if_neg page]
      exact inv.frames vb v word' old
    · obtain ⟨page, rfl⟩ := Prod.mk.inj (List.mem_singleton.mp new)
      have tableB : t.dir.tables (pagedirIndex vb) ≠ 0 := (slot_of_page page).1 ▸ table
      rw [entry vb word' tableB, if_pos page, mappedEntry, frameAddress_mod]
      apply BitVec.eq_of_toNat_eq
      simp only [BitVec.toNat_ofNat]
      omega
  · obtain ⟨nodup, inside⟩ := inv.keys
    refine ⟨?_, ?_⟩
    · rw [List.map_append, List.map_singleton]
      refine List.nodup_append.mpr ⟨nodup, List.pairwise_singleton _ _, ?_⟩
      rintro a ha b hb rfl
      rw [List.mem_singleton.mp hb] at ha
      exact absent ha
    · intro p hp
      rcases List.mem_append.mp hp with old | new
      · exact inside p old
      · rw [List.mem_singleton.mp new]
        change va / 4096 < 2 ^ 20
        omega

end NewPage

theorem placementAfter_mono (placementaddr made : Nat) :
    placementAfter placementaddr made ≤ pageUp placementaddr + 4096 * made := by
  unfold placementAfter pageUp
  split <;> omega

theorem allocatePage_follows {s t : Vmm} {plan : FramePlan} (start : EmptyDirectory s)
    (inv : Follows s plan t) (va : Nat) (word : va < 2 ^ 32)
    (more : (plan.add s va).pages.length ≤ frameLimit) :
    Follows s (plan.add s va) (t.allocatePage va) := by
  have slot := slot_lt word
  by_cases listed : va / 4096 ∈ plan.pages.map Prod.fst
  · have present := (inv.present va word).mpr listed
    have same : t.withTable (pagedirIndex va) = t := if_neg present.1
    rw [allocatePage_eq, same, if_pos present.2, FramePlan.add, if_pos listed]
    exact inv
  · rw [FramePlan.add, if_neg listed, List.length_append, List.length_singleton] at more
    -- the state and the plan with which the entry is looked at
    have first : Follows s ⟨plan.pages, plan.slots s va⟩ (t.withTable (pagedirIndex va)) := by
      unfold FramePlan.slots
      by_cases null : t.dir.tables (pagedirIndex va) = 0
      · rw [if_pos ((inv.null _ slot).mp null)]
        unfold Vmm.withTable
        rw [if_pos null]
        exact createTable_follows inv slot null start
      · rw [if_neg (fun h => null ((inv.null _ slot).mpr h))]
        unfold Vmm.withTable
        rw [if_neg null]
        exact inv
    have table : (t.withTable (pagedirIndex va)).dir.tables (pagedirIndex va) ≠ 0 := by
      intro null
      obtain ⟨unmade, fresh⟩ := (first.null _ slot).mp null
      have missing : pagedirIndex va ∉ plan.slots s va := fresh
      unfold FramePlan.slots at missing
      split at missing
      · exact missing List.mem_cons_self
      · rename_i here
        exact here ⟨unmade, missing⟩
    have absent : ¬ ((t.withTable (pagedirIndex va)).entryOf va).present = true := fun entry =>
      listed ((first.present va word).mp ⟨table, entry⟩)
    have slots := slots_card _ first.slots.1 first.slots.2
    have room : (t.withTable (pagedirIndex va)).pmm.placementaddr < 2 ^ 32 := by
      rw [first.moved]
      have bound := placementAfter_mono s.pmm.placementaddr (plan.slots s va).length
      have start_room := start.room
      have slots' : (plan.slots s va).length ≤ 1024 := slots
      change placementAfter s.pmm.placementaddr (plan.slots s va).length < 2 ^ 32
      omega
    have mapped := mapPage_follows first word table listed room (by exact more)
    rw [first.moved] at mapped
    rw [allocatePage_eq, if_neg absent, FramePlan.add, if_neg listed]
    exact mapped

theorem add_length_le (s : Vmm) (plan : FramePlan) (va : Nat) :
    plan.pages.length ≤ (plan.add s va).pages.length := by
  unfold FramePlan.add
  split
  · exact Nat.le_refl _
  · rw [List.length_append]
    exact Nat.le_add_right _ _

theorem foldl_add_length_le (s : Vmm) (vas : List Nat) (plan : FramePlan) :
    plan.pages.length ≤ (vas.foldl (FramePlan.add s) plan).pages.length := by
  induction vas generalizing plan with
  | nil => exact Nat.le_refl _
  | cons va rest ih => exact Nat.le_trans (add_length_le s plan va) (ih (plan.add s va))

theorem foldl_follows {s : Vmm} (start : EmptyDirectory s) (vas : List Nat)
    (words : ∀ va ∈ vas, va < 2 ^ 32) (plan : FramePlan) (t : Vmm) (inv : Follows s plan t)
    (enough : (vas.foldl (FramePlan.add s) plan).pages.length ≤ frameLimit) :
    Follows s (vas.foldl (FramePlan.add s) plan) (vas.foldl Vmm.allocatePage t) := by
  induction vas generalizing plan t with
  | nil => exact inv
  | cons va rest ih =>
    have more := Nat.le_trans (foldl_add_length_le s rest (plan.add s va)) enough
    exact ih (fun w hw => words w (List.mem_cons_of_mem va hw)) (plan.add s va) (t.allocatePage va)
      (allocatePage_follows start inv va (words va List.mem_cons_self) more) enough

theorem empty_follows {s : Vmm} (start : EmptyDirectory s) : Follows s ⟨[], []⟩ s := by
  refine ⟨start.placed, ?_, ⟨List.Pairwise.nil, ?_⟩, rfl, ?_, ?_, ?_, ⟨List.Pairwise.nil, ?_⟩⟩
  · simp
  · simp
  · intro i inside
    simp [start.frames i inside]
  · intro va word
    simp [start.absent va word]
  · simp
  · simp

/-- The frame field keeps the low eight bits of the frame number, in its upper
eight bits. -/
theorem walk_of_listed {s t : Vmm} {plan : FramePlan} (inv : Follows s plan t) (va v : Nat)
    (word : va < 2 ^ 32) (listed : (va / 4096, v) ∈ plan.pages) :
    ∃ pa, t.walk va = some pa ∧ pa / 4096 = v % 256 * 4096 := by
  have present := (inv.present va word).mpr (List.mem_map.mpr ⟨_, listed, rfl⟩)
  refine ⟨_, walk_of_present t inv.placed.coherent va word present, ?_⟩
  rw [inv.frames va v word listed, BitVec.toNat_ofNat]
  omega

theorem listed_of_walk {s t : Vmm} {plan : FramePlan} (inv : Follows s plan t) (va pa : Nat)
    (word : va < 2 ^ 32) (found : t.walk va = some pa) : ∃ v, (va / 4096, v) ∈ plan.pages := by
  have present : PagePresent t va := by
    by_contra absent
    rw [walk_of_absent t inv.placed.coherent va word absent] at found
    cases found
  obtain ⟨⟨_, v⟩, listed, rfl⟩ := List.mem_map.mp ((inv.present va word).mp present)
  exact ⟨v, listed⟩

theorem noSharing_of_plan {s t : Vmm} {plan : FramePlan} (inv : Follows s plan t) :
    NoSharing t ↔ (plan.pages.map (fun p => p.2 % 256)).Nodup := by
  rw [List.nodup_map_iff_inj_on inv.keys.1.of_map]
  constructor
  · rintro apart ⟨a, va⟩ ha ⟨b, vb⟩ hb (same : va % 256 = vb % 256)
    have wordA : a < 2 ^ 20 := inv.keys.2 _ ha
    have wordB : b < 2 ^ 20 := inv.keys.2 _ hb
    have pages : a = b := by
      by_contra other
      have backA : 4096 * a / 4096 = a := by omega
      have backB : 4096 * b / 4096 = b := by omega
      obtain ⟨pa, walkA, frameA⟩ :=
        walk_of_listed inv (4096 * a) va (by omega) (by rw [backA]; exact ha)
      obtain ⟨pb, walkB, frameB⟩ :=
        walk_of_listed inv (4096 * b) vb (by omega) (by rw [backB]; exact hb)
      refine apart (4096 * a) (4096 * b) (by omega) (by omega) (by omega) pa pb walkA walkB ?_
      rw [frameA, frameB, same]
    exact List.inj_on_of_nodup_map inv.keys.1 ha hb pages
  · intro distinct va vb wordA wordB pages pa pb walkA walkB frames
    obtain ⟨a, listedA⟩ := listed_of_walk inv va pa wordA walkA
    obtain ⟨b, listedB⟩ := listed_of_walk inv vb pb wordB walkB
    obtain ⟨pa', walkA', frameA⟩ := walk_of_listed inv va a wordA listedA
    obtain ⟨pb', walkB', frameB⟩ := walk_of_listed inv vb b wordB listedB
    have sameA : pa = pa' := Option.some.inj (walkA.symm.trans walkA')
    have sameB : pb = pb' := Option.some.inj (walkB.symm.trans walkB')
    have numbers : a % 256 = b % 256 := by
      rw [sameA, sameB, frameA, frameB] at frames
      omega
    exact pages (Prod.mk.inj (distinct _ listedA _ listedB numbers)).1

/-- The run follows its plan to the end. -/
theorem run_follows (s : Vmm) (vas : List Nat) (start : EmptyDirectory s)
    (words : ∀ va ∈ vas, va < 2 ^ 32) (enough : (framePlan s vas).pages.length ≤ frameLimit) :
    Follows s (framePlan s vas) (vas.foldl Vmm.allocatePage s) :=
  foldl_follows start vas words _ s (empty_follows start) enough

/-- Pages keep frames of their own exactly as long as the frame numbers of the
plan differ modulo 256; so at most 256 pages do. -/
theorem frames_distinct_iff (s : Vmm) (vas : List Nat) (start : EmptyDirectory s)
    (words : ∀ va ∈ vas, va < 2 ^ 32) (enough : (framePlan s vas).pages.length ≤ frameLimit) :
    NoSharing (vas.foldl Vmm.allocatePage s) ↔
      ((framePlan s vas).pages.map (fun p => p.2 % 256)).Nodup :=
  noSharing_of_plan (run_follows s vas start words enough)

def noTables : Vmm where
  pmm := ⟨0x200000, fun _ => 0#32, []⟩
  kernelDir := 0x1FE000
  dir := ⟨fun _ => 0, fun _ => PageDirEntry.zero⟩
  entries := fun _ => Page.zero
  heapStart := 0
  heapEnd := 0
  heapCur := 0
  trace := []
  calls := []

theorem noTables_empty : EmptyDirectory noTables := by
  refine ⟨⟨?_, ?_, ?_⟩, ?_, ?_, by decide, by decide⟩
  · intro i _
    exact ⟨⟨fun h => absurd rfl h, fun h => absurd h Bool.false_ne_true⟩,
      fun h => absurd h Bool.false_ne_true⟩
  · intro i _ h
    exact absurd rfl h
  · intro i j _ _ h
    exact absurd rfl h
  · rintro va _ ⟨h, _⟩
    exact h rfl
  · intro i _
    rw [isset_getLsbD]
    exact BitVec.getLsbD_zero

theorem foldl_add_keys (s : Vmm) (vas : List Nat) (plan : FramePlan)
    (fresh : (plan.pages.map Prod.fst ++ vas.map (· / 4096)).Nodup) :
    (vas.foldl (FramePlan.add s) plan).pages.map Prod.fst =
      plan.pages.map Prod.fst ++ vas.map (· / 4096) := by
  induction vas generalizing plan with
  | nil => simp
  | cons va rest ih =>
    have absent : va / 4096 ∉ plan.pages.map Prod.fst := by
      rw [List.map_cons, List.nodup_append] at fresh
      exact fun listed => fresh.2.2 _ listed _ List.mem_cons_self rfl
    have added : (plan.add s va).pages.map Prod.fst = plan.pages.map Prod.fst ++ [va / 4096] := by
      rw [FramePlan.add, if_neg absent, List.map_append, List.map_singleton]
    rw [List.map_cons, List.append_cons] at fresh ⊢
    rw [List.foldl_cons, ih (plan.add s va) (added ▸ fresh), added]

theorem framePlan_length (s : Vmm) (vas : List Nat) (distinct : (vas.map (· / 4096)).Nodup) :
    (framePlan s vas).pages.length = vas.length := by
  have keys := congrArg List.length (foldl_add_keys s vas ⟨[], []⟩ distinct)
  simpa [framePlan] using keys

theorem too_many_share {s t : Vmm} {plan : FramePlan} (inv : Follows s plan t)
    (many : 256 < plan.pages.length) : ¬ NoSharing t := by
  rw [noSharing_of_plan inv]
  intro distinct
  have sub : plan.pages.map (fun p => p.2 % 256) ⊆ List.range 256 := by
    intro v hv
    obtain ⟨p, _, rfl⟩ := List.mem_map.mp hv
    exact List.mem_range.mpr (Nat.mod_lt _ (by decide))
  have count := List.Nodup.length_le_of_subset distinct sub
  rw [List.length_map, List.length_range] at count
  omega

def pages257 : List Nat := (List.range 257).map (· * 4096)

/-- Among any 257 pages two share a frame. -/
theorem pages257_share : EmptyDirectory noTables ∧ (∀ va ∈ pages257, va < 2 ^ 32) ∧
    (framePlan noTables pages257).pages.length ≤ frameLimit ∧
    ¬ NoSharing (pages257.foldl Vmm.allocatePage noTables) := by
  have numbers : pages257.map (· / 4096) = List.range 257 := by
    rw [pages257, List.map_map]
    exact (List.map_congr_left fun k _ => Nat.mul_div_cancel k (by decide)).trans (List.map_id _)
  have count : (framePlan noTables pages257).pages.length = 257 := by
    rw [framePlan_length noTables pages257 (numbers ▸ List.nodup_range), pages257, List.length_map,
      List.length_range]
  have words : ∀ va ∈ pages257, va < 2 ^ 32 := by
    intro va listed
    obtain ⟨k, hk, rfl⟩ := List.mem_map.mp listed
    have := List.mem_range.mp hk
    omega
  have enough : (framePlan noTables pages257).pages.length ≤ frameLimit := by
    rw [count]
    decide
  exact ⟨noTables_empty, words, enough,
    too_many_share (run_follows noTables pages257 noTables_empty words enough) (by omega)⟩

/-- Four pages in three slots: no two of them share a frame. -/
theorem four_pages_apart : NoSharing
    ([0x1000, 0x400000, 0x1234, 0x2000, 0xC0000000].foldl Vmm.allocatePage noTables) :=
  (frames_distinct_iff noTables _ noTables_empty (by decide) (by decide)).mpr (by decide)

end RiseOS
