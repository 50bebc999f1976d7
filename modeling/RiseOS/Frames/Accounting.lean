import RiseOS.Frames.Bitmap
import RiseOS.Library.Runs

/-! Runs of the frame allocator alone: `placementaddr` stays where it is.
The list of outstanding addresses is the callers' view, kept beside the bitmap. -/
namespace RiseOS
open Words Runs

inductive FrameCall where
  | kalloc
  | kfree (addr : Nat)
  deriving DecidableEq

structure FrameState where
  pmm : Pmm
  outstanding : List Nat

def frameStep (s : FrameState) : FrameCall → Option FrameState
  | .kalloc =>
      let (pmm, addr) := s.pmm.kallocPageFrame
      some ⟨pmm, if addr = noFrame then s.outstanding else addr :: s.outstanding⟩
  | .kfree addr => some ⟨s.pmm.kfreePageFrame addr, s.outstanding.erase addr⟩

/-- No call runs out of frames, and only outstanding addresses are freed. -/
def FrameAllowed (s : FrameState) : FrameCall → Prop
  | .kalloc => s.pmm.kallocPageFrame.2 ≠ noFrame
  | .kfree addr => addr ∈ s.outstanding

instance : ∀ s c, Decidable (FrameAllowed s c)
  | s, .kalloc => inferInstanceAs (Decidable (s.pmm.kallocPageFrame.2 ≠ noFrame))
  | s, .kfree addr => inferInstanceAs (Decidable (addr ∈ s.outstanding))

/-- Bit `i` is set exactly when frame `i` is reserved or outstanding, so a frame
that is neither is allocatable; and no address is outstanding twice. -/
def Accounted (reserved : Bitmap) (s : FrameState) : Prop :=
  (∀ i, i < frameLimit → (isset s.pmm.bitmap i = true ↔
    isset reserved i = true ∨ frameAddress s.pmm.placementaddr i ∈ s.outstanding)) ∧
  s.outstanding.Nodup

def FrameStart (s : FrameState) : Prop :=
  s.pmm.placementaddr < 2 ^ 32 ∧ s.pmm.placementaddr % 4096 = 0 ∧ s.outstanding = []

structure FrameInv (reserved : Bitmap) (s : FrameState) : Prop where
  word : s.pmm.placementaddr < 2 ^ 32
  aligned : s.pmm.placementaddr % 4096 = 0
  accounted : Accounted reserved s
  issued : ∀ addr ∈ s.outstanding, ∃ i, i < frameLimit ∧ isset reserved i = false ∧
    addr = frameAddress s.pmm.placementaddr i

theorem frameAddress_inj {placementaddr i j : Nat} (hi : i < frameLimit) (hj : j < frameLimit)
    (same : frameAddress placementaddr i = frameAddress placementaddr j) : i = j := by
  rw [frameAddress_mod, frameAddress_mod] at same
  unfold frameLimit at hi hj
  omega

theorem frameAddress_ne_noFrame (placementaddr i : Nat) :
    frameAddress placementaddr i ≠ noFrame := by
  rw [frameAddress_mod, noFrame]
  omega

/-- The address of frame `i` is decoded to the index of its upper neighbour. -/
theorem kfree_index {placementaddr i : Nat} (word : placementaddr < 2 ^ 32)
    (aligned : placementaddr % 4096 = 0) (hi : i < frameLimit) :
    wsub (frameAddress placementaddr i) placementaddr / 4096 = i + 1 := by
  rw [frameAddress_mod]
  unfold frameLimit at hi
  simp only [wsub, wrap]
  omega

theorem frame_start_inv (s : FrameState) (start : FrameStart s) :
    FrameInv s.pmm.bitmap s := by
  obtain ⟨word, aligned, none⟩ := start
  refine ⟨word, aligned, ⟨fun i _ => by simp [none], by simp [none]⟩, ?_⟩
  simp [none]

theorem kalloc_keeps_accounts (reserved : Bitmap) (s s' : FrameState)
    (inv : FrameInv reserved s) (allowed : FrameAllowed s .kalloc)
    (stepped : frameStep s .kalloc = some s') : FrameInv reserved s' := by
  rcases kallocPageFrame_cases s.pmm with ⟨i, hi, clear, _, _, result⟩ | ⟨_, _, result⟩
  · have unreserved : isset reserved i = false := by
      by_contra set
      have bit := (inv.accounted.1 i hi).mpr (.inl (by simpa using set))
      rw [clear] at bit
      cases bit
    have fresh : frameAddress s.pmm.placementaddr i ∉ s.outstanding := by
      intro old
      have bit := (inv.accounted.1 i hi).mpr (.inr old)
      rw [clear] at bit
      cases bit
    simp only [frameStep, result, frameAddress_ne_noFrame, if_false, Option.some.injEq] at stepped
    subst stepped
    refine ⟨inv.word, inv.aligned, ⟨?_, List.nodup_cons.mpr ⟨fresh, inv.accounted.2⟩⟩, ?_⟩
    · intro j hj
      simp only [isset_setbit, Bool.or_eq_true, decide_eq_true_eq, List.mem_cons,
        inv.accounted.1 j hj]
      have same : j = i ↔ frameAddress s.pmm.placementaddr j = frameAddress s.pmm.placementaddr i :=
        ⟨fun h => h ▸ rfl, frameAddress_inj hj hi⟩
      rw [same]
      exact or_left_comm
    · intro addr member
      rcases List.mem_cons.mp member with rfl | member
      · exact ⟨i, hi, unreserved, rfl⟩
      · exact inv.issued addr member
  · exact absurd (congrArg Prod.snd result) allowed

theorem kfree_breaks_accounts (reserved : Bitmap) (s s' : FrameState) (addr : Nat)
    (inv : FrameInv reserved s) (allowed : FrameAllowed s (.kfree addr))
    (stepped : frameStep s (.kfree addr) = some s') : ¬ Accounted reserved s' := by
  obtain ⟨i, hi, unreserved, rfl⟩ := inv.issued addr allowed
  have held : isset s.pmm.bitmap i = true := (inv.accounted.1 i hi).mpr (.inr allowed)
  simp only [frameStep, kfreePageFrame_eq, kfree_index inv.word inv.aligned hi,
    Option.some.injEq] at stepped
  subst stepped
  rintro ⟨bits, _⟩
  have still := (bits i hi).mp (by simp [isset_clearbit, held])
  rcases still with still | still
  · rw [unreserved] at still
    cases still
  · exact (inv.accounted.2.mem_erase_iff.mp still).1 rfl

theorem frameStep_returns (s : FrameState) (c : FrameCall) : ∃ s', frameStep s c = some s' := by
  cases c <;> exact ⟨_, rfl⟩

/-- The frame accounts are right in every state of a run exactly when the run
never frees a frame. -/
theorem accounts_hold_iff_no_free (s : FrameState) (calls : List FrameCall)
    (start : FrameStart s) (allowed : Permitted frameStep FrameAllowed s calls) :
    Always frameStep (Accounted s.pmm.bitmap) s calls ↔ ∀ addr, FrameCall.kfree addr ∉ calls := by
  rw [always_iff_permitted frameStep FrameAllowed (fun _ c => c = .kalloc)
    (FrameInv s.pmm.bitmap) (Accounted s.pmm.bitmap)
    (fun t inv => inv.accounted)
    (fun t c _ _ => frameStep_returns t c)
    (fun t c t' inv ok st kept => by subst kept; exact kalloc_keeps_accounts _ t t' inv ok st)
    (fun t c t' inv ok st broken => by
      cases c with
      | kalloc => exact absurd rfl broken
      | kfree addr => exact kfree_breaks_accounts _ t t' addr inv ok st)
    s calls (frame_start_inv s start) allowed]
  clear start allowed
  induction calls generalizing s with
  | nil => simp [Permitted]
  | cons c rest ih =>
    obtain ⟨s', hs⟩ := frameStep_returns s c
    simp only [Permitted, hs, Option.some.injEq, forall_eq', ih s', List.mem_cons, not_or]
    cases c <;> simp [forall_and]

def emptyFrames : FrameState := ⟨⟨0x200000, fun _ => 0#32, []⟩, []⟩

theorem taken_frames_accounted :
    Always frameStep (Accounted emptyFrames.pmm.bitmap) emptyFrames [.kalloc, .kalloc] := by
  exact (accounts_hold_iff_no_free emptyFrames [.kalloc, .kalloc]
    ⟨by decide, by decide, rfl⟩ (by decide +kernel)).mpr (by simp)

/-- Two frames are taken and the lower one is given back: the free clears the
bit of the frame still outstanding, and the next call hands that frame out again. -/
theorem freed_neighbour_breaks_accounts :
    FrameStart emptyFrames ∧
    Permitted frameStep FrameAllowed emptyFrames [.kalloc, .kalloc, .kfree 0x201000, .kalloc] ∧
    ¬ Always frameStep (Accounted emptyFrames.pmm.bitmap) emptyFrames
        [.kalloc, .kalloc, .kfree 0x201000, .kalloc] ∧
    (run frameStep emptyFrames [.kalloc, .kalloc, .kfree 0x201000, .kalloc]).map
      FrameState.outstanding = some [0x202000, 0x202000] := by
  have twice : (run frameStep emptyFrames [.kalloc, .kalloc, .kfree 0x201000, .kalloc]).map
      FrameState.outstanding = some [0x202000, 0x202000] := by decide +kernel
  refine ⟨⟨by decide, by decide, rfl⟩, by decide +kernel, ?_, twice⟩
  intro always
  obtain ⟨s', ended, double⟩ := Option.map_eq_some_iff.mp twice
  have distinct := (always _ (List.prefix_refl _) s' ended).2
  rw [double] at distinct
  simp at distinct

end RiseOS
