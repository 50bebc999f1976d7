import RiseOS.Frames.Accounting

/-! Runs that mix dumballoc with the frame allocator. Both take memory from
`placementaddr` on, and each dumballoc moves the base of every frame index. -/
namespace RiseOS
open Words Runs

inductive EarlyCall where
  | dumballoc (sz : Nat)
  | kalloc
  | kfree (addr : Nat)
  deriving DecidableEq

structure EarlyState where
  pmm : Pmm
  outstanding : List Nat
  regions : List (Nat × Nat)

def earlyStep (s : EarlyState) : EarlyCall → Option EarlyState
  | .dumballoc sz =>
      let (pmm, p) := s.pmm.dumballoc sz
      some ⟨pmm, s.outstanding, (p, sz) :: s.regions⟩
  | .kalloc =>
      let (pmm, addr) := s.pmm.kallocPageFrame
      some ⟨pmm, if addr = noFrame then s.outstanding else addr :: s.outstanding, s.regions⟩
  | .kfree addr => some ⟨s.pmm.kfreePageFrame addr, s.outstanding.erase addr, s.regions⟩

/-- No sum wraps, and only outstanding frames are freed. -/
def EarlyAllowed (s : EarlyState) : EarlyCall → Prop
  | .dumballoc sz => pageUp s.pmm.placementaddr + sz < 2 ^ 32
  | .kalloc => ∀ i ∈ findClear s.pmm.bitmap frameLimit 0,
      (s.pmm.placementaddr / 4096 + i + 1) * 4096 < 2 ^ 32
  | .kfree addr => addr ∈ s.outstanding

instance : ∀ s c, Decidable (EarlyAllowed s c)
  | s, .dumballoc sz => inferInstanceAs (Decidable (pageUp s.pmm.placementaddr + sz < 2 ^ 32))
  | s, .kalloc => inferInstanceAs (Decidable (∀ i ∈ findClear s.pmm.bitmap frameLimit 0,
      (s.pmm.placementaddr / 4096 + i + 1) * 4096 < 2 ^ 32))
  | s, .kfree addr => inferInstanceAs (Decidable (addr ∈ s.outstanding))

/-- Outstanding frames and dumballoc regions, all pairwise disjoint. -/
structure Exclusive (s : EarlyState) : Prop where
  frames : s.outstanding.Pairwise (fun f g => Disjoint (bytes f 4096) (bytes g 4096))
  mixed : ∀ f ∈ s.outstanding, ∀ r ∈ s.regions, Disjoint (bytes f 4096) (bytes r.1 r.2)
  regions : s.regions.Pairwise (fun r q => Disjoint (bytes r.1 r.2) (bytes q.1 q.2))

/-- The bit under which kalloc_page_frame would hand out frame `f` from `placementaddr`. -/
def frameIndex (placementaddr f : Nat) : Nat := f / 4096 - placementaddr / 4096 - 1

/-- The bits protect the outstanding frames as seen from `placementaddr`. -/
def Protected (bitmap : Bitmap) (placementaddr : Nat) (outstanding : List Nat) : Prop :=
  ∀ f ∈ outstanding, placementaddr / 4096 < f / 4096 →
    isset bitmap (frameIndex placementaddr f) = true

/-- A region that ends below every outstanding frame and leaves these frames'
bits set under the new base; a free whose upper neighbour is not outstanding,
unless `placementaddr` is off a page boundary. -/
def Careful (s : EarlyState) : EarlyCall → Prop
  | .dumballoc sz =>
      (∀ f ∈ s.outstanding, pageUp s.pmm.placementaddr + sz ≤ f) ∧
      Protected s.pmm.bitmap (pageUp s.pmm.placementaddr + sz) s.outstanding
  | .kalloc => True
  | .kfree addr => s.pmm.placementaddr % 4096 ≠ 0 ∨ addr + 4096 ∉ s.outstanding

instance (bitmap : Bitmap) (placementaddr : Nat) (outstanding : List Nat) :
    Decidable (Protected bitmap placementaddr outstanding) :=
  inferInstanceAs (Decidable (∀ f ∈ outstanding, placementaddr / 4096 < f / 4096 →
    isset bitmap (frameIndex placementaddr f) = true))

instance : ∀ s c, Decidable (Careful s c)
  | s, .dumballoc sz => inferInstanceAs (Decidable (
      (∀ f ∈ s.outstanding, pageUp s.pmm.placementaddr + sz ≤ f) ∧
      Protected s.pmm.bitmap (pageUp s.pmm.placementaddr + sz) s.outstanding))
  | _, .kalloc => isTrue trivial
  | s, .kfree addr => inferInstanceAs (Decidable (
      s.pmm.placementaddr % 4096 ≠ 0 ∨ addr + 4096 ∉ s.outstanding))

structure EarlyInv (s : EarlyState) : Prop where
  word : s.pmm.placementaddr < 2 ^ 32
  below : ∀ r ∈ s.regions, r.1 + r.2 ≤ s.pmm.placementaddr
  apart : s.regions.Pairwise (fun r q => Disjoint (bytes r.1 r.2) (bytes q.1 q.2))
  pages : ∀ f ∈ s.outstanding, f % 4096 = 0 ∧ pageUp s.pmm.placementaddr ≤ f ∧ f < 2 ^ 32
  near : ∀ f ∈ s.outstanding, frameIndex s.pmm.placementaddr f < frameLimit
  distinct : s.outstanding.Nodup
  bits : Protected s.pmm.bitmap s.pmm.placementaddr s.outstanding

def EarlyStart (s : EarlyState) : Prop :=
  s.pmm.placementaddr < 2 ^ 32 ∧ s.outstanding = [] ∧ s.regions = []

theorem early_start_inv (s : EarlyState) (start : EarlyStart s) : EarlyInv s := by
  obtain ⟨word, noFrames, noRegions⟩ := start
  refine ⟨word, ?_, ?_, ?_, ?_, ?_, ?_⟩ <;> simp [noFrames, noRegions, Protected]

theorem early_inv_exclusive (s : EarlyState) (inv : EarlyInv s) : Exclusive s := by
  refine ⟨?_, ?_, inv.apart⟩
  · refine inv.distinct.imp_of_mem ?_
    intro f g hf hg different
    have alignedF := (inv.pages f hf).1
    have alignedG := (inv.pages g hg).1
    rw [disjoint_bytes]
    omega
  · intro f hf r hr
    have above := (inv.pages f hf).2.1
    have under := inv.below r hr
    have up : s.pmm.placementaddr ≤ pageUp s.pmm.placementaddr := by
      unfold pageUp
      omega
    rw [disjoint_bytes]
    omega

theorem dumballoc_keeps_inv (s s' : EarlyState) (sz : Nat) (inv : EarlyInv s)
    (allowed : EarlyAllowed s (.dumballoc sz)) (careful : Careful s (.dumballoc sz))
    (stepped : earlyStep s (.dumballoc sz) = some s') : EarlyInv s' := by
  have up : s.pmm.placementaddr ≤ pageUp s.pmm.placementaddr := by
    unfold pageUp
    omega
  simp only [earlyStep, dumballoc_eq s.pmm sz inv.word allowed, Option.some.injEq] at stepped
  subst stepped
  refine ⟨allowed, ?_, List.pairwise_cons.mpr ⟨?_, inv.apart⟩, ?_, ?_, inv.distinct, careful.2⟩
  · intro r hr
    rcases List.mem_cons.mp hr with rfl | hr
    · exact Nat.le_refl _
    · have under := inv.below r hr
      change r.1 + r.2 ≤ pageUp s.pmm.placementaddr + sz
      omega
  · intro r hr
    have under := inv.below r hr
    rw [disjoint_bytes]
    omega
  · intro f hf
    have page := (inv.pages f hf).1
    have reach := careful.1 f hf
    refine ⟨page, ?_, (inv.pages f hf).2.2⟩
    change pageUp (pageUp s.pmm.placementaddr + sz) ≤ f
    generalize pageUp s.pmm.placementaddr + sz = p at reach ⊢
    unfold pageUp
    omega
  · intro f hf
    have close := inv.near f hf
    unfold frameIndex at close ⊢
    change f / 4096 - (pageUp s.pmm.placementaddr + sz) / 4096 - 1 < frameLimit
    omega

theorem kalloc_keeps_inv (s s' : EarlyState) (inv : EarlyInv s)
    (allowed : EarlyAllowed s .kalloc) (stepped : earlyStep s .kalloc = some s') :
    EarlyInv s' := by
  rcases kallocPageFrame_cases s.pmm with ⟨i, hi, clear, _, found, result⟩ | ⟨_, _, result⟩
  · have room := allowed i found
    have address : frameAddress s.pmm.placementaddr i =
        (s.pmm.placementaddr / 4096 + i + 1) * 4096 := by
      rw [frameAddress_mod]
      omega
    have index : frameIndex s.pmm.placementaddr (frameAddress s.pmm.placementaddr i) = i := by
      rw [address, frameIndex]
      omega
    -- a frame whose bit is clear cannot be outstanding
    have fresh : frameAddress s.pmm.placementaddr i ∉ s.outstanding := by
      intro old
      have set := inv.bits _ old (by rw [address]; omega)
      rw [index, clear] at set
      cases set
    simp only [earlyStep, result, frameAddress_ne_noFrame, if_false, Option.some.injEq] at stepped
    subst stepped
    refine ⟨inv.word, inv.below, inv.apart, ?_, ?_, List.nodup_cons.mpr ⟨fresh, inv.distinct⟩, ?_⟩
    · intro f hf
      rcases List.mem_cons.mp hf with rfl | hf
      · have word := inv.word
        refine ⟨by rw [address]; omega, ?_, by rw [address]; exact room⟩
        rw [address]
        change pageUp s.pmm.placementaddr ≤ _
        unfold pageUp
        omega
      · exact inv.pages f hf
    · intro f hf
      rcases List.mem_cons.mp hf with rfl | hf
      · exact index.symm ▸ hi
      · exact inv.near f hf
    · intro f hf higher
      rw [isset_setbit]
      rcases List.mem_cons.mp hf with rfl | hf
      · simp [index]
      · simp [inv.bits f hf higher]
  · simp only [earlyStep, result, if_true, Option.some.injEq] at stepped
    subst stepped
    exact ⟨inv.word, inv.below, inv.apart, inv.pages, inv.near, inv.distinct, inv.bits⟩

theorem kfree_keeps_inv (s s' : EarlyState) (addr : Nat) (inv : EarlyInv s)
    (allowed : EarlyAllowed s (.kfree addr)) (careful : Careful s (.kfree addr))
    (stepped : earlyStep s (.kfree addr) = some s') : EarlyInv s' := by
  obtain ⟨page, above, word⟩ := inv.pages addr allowed
  have offset : wsub addr s.pmm.placementaddr = addr - s.pmm.placementaddr :=
    wsub_eq word (by unfold pageUp at above; omega)
  simp only [earlyStep, kfreePageFrame_eq, offset, Option.some.injEq] at stepped
  subst stepped
  refine ⟨inv.word, inv.below, inv.apart, ?_, ?_, inv.distinct.erase addr, ?_⟩
  · exact fun f hf => inv.pages f (List.mem_of_mem_erase hf)
  · exact fun f hf => inv.near f (List.mem_of_mem_erase hf)
  · intro f hf higher
    obtain ⟨different, old⟩ := (inv.distinct.mem_erase_iff).mp hf
    have kept := inv.bits f old higher
    have pageF := (inv.pages f old).1
    have other : frameIndex s.pmm.placementaddr f ≠ (addr - s.pmm.placementaddr) / 4096 := by
      rcases careful with off | apart
      · unfold frameIndex
        unfold pageUp at above
        change s.pmm.placementaddr / 4096 < f / 4096 at higher
        omega
      · have notUpper : f ≠ addr + 4096 := by
          rintro rfl
          exact apart old
        unfold frameIndex
        unfold pageUp at above
        change s.pmm.placementaddr / 4096 < f / 4096 at higher
        by_cases aligned : s.pmm.placementaddr % 4096 = 0
        · omega
        · omega
    simp only [isset_clearbit, Bool.and_eq_true, decide_eq_true_eq]
    exact ⟨other, kept⟩

theorem early_step_keeps_inv (s s' : EarlyState) (c : EarlyCall) (inv : EarlyInv s)
    (ok : EarlyAllowed s c ∧ Careful s c) (stepped : earlyStep s c = some s') : EarlyInv s' := by
  cases c with
  | dumballoc sz => exact dumballoc_keeps_inv s s' sz inv ok.1 ok.2 stepped
  | kalloc => exact kalloc_keeps_inv s s' inv ok.1 stepped
  | kfree addr => exact kfree_keeps_inv s s' addr inv ok.1 ok.2 stepped

theorem earlyStep_returns (s : EarlyState) (c : EarlyCall) : ∃ s', earlyStep s c = some s' := by
  cases c <;> exact ⟨_, rfl⟩

/-- The frames stay exclusive in this state and however often frames are
allocated from here on. -/
def ExclusiveOnward (s : EarlyState) : Prop :=
  ∀ n, Permitted earlyStep EarlyAllowed s (List.replicate n .kalloc) →
    Always earlyStep Exclusive s (List.replicate n .kalloc)

theorem kalloc_takes_least (s : EarlyState) (i : Nat) (near : i < frameLimit)
    (clear : isset s.pmm.bitmap i = false) (before : ∀ j, j < i → isset s.pmm.bitmap j = true)
    (room : (s.pmm.placementaddr / 4096 + i + 1) * 4096 < 2 ^ 32) :
    EarlyAllowed s .kalloc ∧ ∃ s', earlyStep s .kalloc = some s' ∧
      s'.pmm.placementaddr = s.pmm.placementaddr ∧ s'.pmm.bitmap = setbit s.pmm.bitmap i ∧
      s'.outstanding = (s.pmm.placementaddr / 4096 + i + 1) * 4096 :: s.outstanding := by
  have found := findClear_eq s.pmm.bitmap frameLimit i near clear before
  have address : frameAddress s.pmm.placementaddr i =
      (s.pmm.placementaddr / 4096 + i + 1) * 4096 := by
    rw [frameAddress_mod]
    omega
  constructor
  · intro k hk
    rw [found] at hk
    cases Option.some.inj hk
    exact room
  · have other := frameAddress_ne_noFrame s.pmm.placementaddr i
    rw [address] at other
    refine ⟨⟨{ s.pmm with bitmap := setbit s.pmm.bitmap i }, _, s.regions⟩, ?_, rfl, rfl, rfl⟩
    simp [earlyStep, Pmm.kallocPageFrame, found, address, other]

/-- An outstanding frame whose bit is clear is handed out again once the bits
below it are used up; the induction is on the distance of the least clear one. -/
theorem unprotected_frame_reissued (d : Nat) (s : EarlyState) (f : Nat) (held : f ∈ s.outstanding)
    (page : f % 4096 = 0) (word : f < 2 ^ 32) (higher : s.pmm.placementaddr / 4096 < f / 4096)
    (near : frameIndex s.pmm.placementaddr f < frameLimit)
    (clear : isset s.pmm.bitmap (frameIndex s.pmm.placementaddr f) = false)
    (before : ∀ j, j + d < frameIndex s.pmm.placementaddr f → isset s.pmm.bitmap j = true) :
    ¬ ExclusiveOnward s := by
  have address : (s.pmm.placementaddr / 4096 + frameIndex s.pmm.placementaddr f + 1) * 4096 = f := by
    unfold frameIndex
    omega
  induction d generalizing s with
  | zero =>
    obtain ⟨allowed, s', stepped, _, _, frames⟩ :=
      kalloc_takes_least s _ near clear before (by omega)
    intro onward
    have twice := onward 1 ⟨allowed, fun _ _ => trivial⟩ [.kalloc] (List.prefix_refl _) s'
      (by simp [stepped])
    have apart := twice.frames
    rw [frames, address] at apart
    have same := List.rel_of_pairwise_cons apart held
    rw [disjoint_bytes] at same
    omega
  | succ d ih =>
    by_cases set : isset s.pmm.bitmap (frameIndex s.pmm.placementaddr f - (d + 1)) = true
    · refine ih s held higher near clear ?_ address
      intro j hj
      by_cases last : j = frameIndex s.pmm.placementaddr f - (d + 1)
      · exact last ▸ set
      · exact before j (by omega)
    · by_cases deep : frameIndex s.pmm.placementaddr f < d + 1
      · exact ih s held higher near clear (fun j hj => by omega) address
      · obtain ⟨allowed, s', stepped, base, bits, frames⟩ := kalloc_takes_least s
          (frameIndex s.pmm.placementaddr f - (d + 1)) (by omega) (Bool.eq_false_iff.mpr set)
          (fun j hj => before j (by omega)) (by omega)
        rw [← base] at higher near clear before address deep bits
        intro onward
        refine ih s' (frames ▸ List.mem_cons_of_mem _ held) higher near ?_ ?_ address ?_
        · rw [bits, isset_setbit, clear]
          simp
          omega
        · intro j hj
          rw [bits, isset_setbit]
          by_cases last : j = frameIndex s'.pmm.placementaddr f - (d + 1)
          · simp [last]
          · simp [before j (by omega)]
        · intro n permitted
          have whole := onward (n + 1) ⟨allowed, fun t ht => by
            cases Option.some.inj (stepped.symm.trans ht)
            exact permitted⟩
          exact ((always_cons earlyStep Exclusive s .kalloc _).mp whole).2 s' stepped

theorem early_inv_onward (s : EarlyState) (inv : EarlyInv s) : ExclusiveOnward s := by
  intro n permitted done prefixed t ended
  refine early_inv_exclusive t (always_invariant earlyStep
    (fun t c => EarlyAllowed t c ∧ Careful t c) EarlyInv
    (fun t c t' inv ok ht => early_step_keeps_inv t t' c inv ok ht)
    s _ inv ?_ done prefixed t ended)
  clear prefixed ended done inv
  induction n generalizing s with
  | zero => trivial
  | succ n ih => exact ⟨⟨permitted.1, trivial⟩, fun s' hs => ih s' (permitted.2 s' hs)⟩

theorem careless_dumballoc (s s' : EarlyState) (sz : Nat) (inv : EarlyInv s)
    (allowed : EarlyAllowed s (.dumballoc sz)) (careless : ¬ Careful s (.dumballoc sz))
    (stepped : earlyStep s (.dumballoc sz) = some s') : ¬ ExclusiveOnward s' := by
  simp only [earlyStep, dumballoc_eq s.pmm sz inv.word allowed, Option.some.injEq] at stepped
  subst stepped
  simp only [Careful, not_and_or, not_forall, Protected] at careless
  rcases careless with ⟨f, hf, reach⟩ | ⟨f, hf, higher, clear⟩
  · intro onward
    have here := onward 0 trivial [] (List.prefix_refl _) _ rfl
    have apart := here.mixed f hf (pageUp s.pmm.placementaddr, sz) List.mem_cons_self
    have above := (inv.pages f hf).2.1
    rw [disjoint_bytes] at apart
    omega
  · obtain ⟨page, _, word⟩ := inv.pages f hf
    have close := inv.near f hf
    refine unprotected_frame_reissued _ _ f hf page word higher ?_ (Bool.eq_false_iff.mpr clear)
      (fun j hj => absurd hj (Nat.not_lt_of_le (Nat.le_add_left _ j)))
    have up : s.pmm.placementaddr ≤ pageUp s.pmm.placementaddr := by
      unfold pageUp
      omega
    unfold frameIndex at close ⊢
    change f / 4096 - (pageUp s.pmm.placementaddr + sz) / 4096 - 1 < frameLimit
    omega

theorem careless_kfree (s s' : EarlyState) (addr : Nat) (inv : EarlyInv s)
    (allowed : EarlyAllowed s (.kfree addr)) (careless : ¬ Careful s (.kfree addr))
    (stepped : earlyStep s (.kfree addr) = some s') : ¬ ExclusiveOnward s' := by
  obtain ⟨page, above, word⟩ := inv.pages addr allowed
  simp only [Careful, not_or, not_not] at careless
  obtain ⟨aligned, held⟩ := careless
  have offset : wsub addr s.pmm.placementaddr = addr - s.pmm.placementaddr :=
    wsub_eq word (by unfold pageUp at above; omega)
  obtain ⟨pageUpper, aboveUpper, wordUpper⟩ := inv.pages _ held
  have index : frameIndex s.pmm.placementaddr (addr + 4096) =
      (addr - s.pmm.placementaddr) / 4096 := by
    unfold frameIndex
    unfold pageUp at above
    omega
  simp only [earlyStep, kfreePageFrame_eq, offset, Option.some.injEq] at stepped
  subst stepped
  refine unprotected_frame_reissued _ _ (addr + 4096) ?_ pageUpper wordUpper ?_
    (inv.near _ held) ?_ (fun j hj => absurd hj (Nat.not_lt_of_le (Nat.le_add_left _ j)))
  · exact (List.mem_erase_of_ne (by omega)).mpr held
  · change s.pmm.placementaddr / 4096 < (addr + 4096) / 4096
    unfold pageUp at above
    omega
  · simp [isset_clearbit, index]

theorem onward_exclusive (s : EarlyState) (onward : ExclusiveOnward s) : Exclusive s :=
  onward 0 trivial [] (List.prefix_refl _) s rfl

/-- A careful run keeps frames and regions pairwise disjoint; a careless call
makes them overlap, at once or in some sequence of allocations after it. -/
theorem exclusive_iff_careful (s : EarlyState) (calls : List EarlyCall) (start : EarlyStart s)
    (allowed : Permitted earlyStep EarlyAllowed s calls) :
    (Permitted earlyStep Careful s calls → Always earlyStep Exclusive s calls) ∧
    (Always earlyStep ExclusiveOnward s calls ↔ Permitted earlyStep Careful s calls) := by
  have exact_runs := always_iff_permitted earlyStep EarlyAllowed Careful EarlyInv ExclusiveOnward
    (fun t inv => early_inv_onward t inv)
    (fun t c _ _ => earlyStep_returns t c)
    (fun t c t' inv ok st careful => early_step_keeps_inv t t' c inv ⟨ok, careful⟩ st)
    (fun t c t' inv ok st careless => by
      cases c with
      | dumballoc sz => exact careless_dumballoc t t' sz inv ok careless st
      | kalloc => exact absurd trivial careless
      | kfree addr => exact careless_kfree t t' addr inv ok careless st)
    s calls (early_start_inv s start) allowed
  refine ⟨?_, exact_runs⟩
  intro careful done prefixed t ended
  exact onward_exclusive t (exact_runs.mpr careful done prefixed t ended)

def emptyEarly : EarlyState := ⟨⟨0x200000, fun _ => 0#32, []⟩, [], []⟩

theorem region_then_frames_exclusive :
    Always earlyStep Exclusive emptyEarly [.dumballoc 8000, .kalloc, .kalloc, .kfree 0x203000] :=
  (exclusive_iff_careful emptyEarly [.dumballoc 8000, .kalloc, .kalloc, .kfree 0x203000]
    ⟨by decide, rfl, rfl⟩ (by decide +kernel)).1 (by decide +kernel)

/-- The second region is the frame that was handed out before it. -/
theorem region_over_frame :
    EarlyStart emptyEarly ∧
    Permitted earlyStep EarlyAllowed emptyEarly [.kalloc, .dumballoc 4096, .dumballoc 4096] ∧
    ¬ Always earlyStep Exclusive emptyEarly [.kalloc, .dumballoc 4096, .dumballoc 4096] := by
  refine ⟨⟨by decide, rfl, rfl⟩, by decide +kernel, ?_⟩
  have same : (run earlyStep emptyEarly [.kalloc, .dumballoc 4096, .dumballoc 4096]).map
      (fun s => (s.outstanding, s.regions)) =
        some ([0x201000], [(0x201000, 4096), (0x200000, 4096)]) := by decide +kernel
  intro always
  obtain ⟨s', ended, lists⟩ := Option.map_eq_some_iff.mp same
  obtain ⟨frames, regions⟩ := Prod.mk.inj lists
  have apart := (always _ (List.prefix_refl _) s' ended).mixed 0x201000 (by simp [frames])
    (0x201000, 4096) (by simp [regions])
  rw [disjoint_bytes] at apart
  omega

end RiseOS
