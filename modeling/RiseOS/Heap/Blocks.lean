import RiseOS.Heap.Tags
import RiseOS.Heap.Chunks
import RiseOS.Library.Links
import RiseOS.Library.Tiling

/-! The invariant of the heap: the tags tile the chunks, and the free ones are
in the lists. -/
namespace RiseOS
open Words Links Tiling

def validBuckets : Set Int := { b | 0 ≤ b ∧ b < maxExp }

/-- `T` are all tags and `F` the free ones; the index of `hand` does not count. -/
structure Blocks (s : Heap) (T F : Finset Nat) (hand : Nat) : Prop where
  tiled : Tiled sizeofTag (chunkSet s.vmm.calls) (s.get .realSize) (s.get .splitLeft)
    (s.get .splitRight) T
  linked : Linked 0 validBuckets s.freePages s.index (s.get .next) (s.get .prev) F
  free_sub : F ⊆ T
  hand_loose : hand ∉ F
  free_iff : ∀ t ∈ T, t ≠ hand → (0 ≤ s.index t ↔ t ∈ F)
  loose : ∀ t ∈ T, t ∉ F → s.get .next t = 0 ∧ s.get .prev t = 0
  magic : ∀ t ∈ T, s.get .magic t = liballocMagic
  below : ∀ c ∈ chunkSet s.vmm.calls, ChunkBelow s.vmm.heapCur c
  word : s.vmm.heapCur + 0x400000 < 2 ^ 32

section Reading

variable {s : Heap} {T F : Finset Nat} {hand : Nat} (h : Blocks s T F hand)
include h

theorem Blocks.fits {t : Nat} (ht : t ∈ T) : t + s.get .realSize t + 0x400000 < 2 ^ 32 := by
  obtain ⟨c, hc, _, high, _⟩ := h.tiled.inside t ht
  have := (h.below c hc).1
  have := h.word
  omega

theorem Blocks.long {t : Nat} (ht : t ∈ T) : 32 ≤ s.get .realSize t := h.tiled.long t ht

theorem Blocks.card_lt : T.card < loopFuel := by
  have sub : T ⊆ Finset.range (2 ^ 32 - 1) := by
    intro t mem
    have := h.fits mem
    exact Finset.mem_range.mpr (by omega)
  have count := Finset.card_le_card sub
  rw [Finset.card_range] at count
  unfold loopFuel
  omega

theorem Blocks.apart : HeadersApart T := by
  refine ⟨?_, ?_⟩
  · intro t ht
    have := h.fits ht
    have := h.long ht
    omega
  · intro t ht u hu other
    have := h.tiled.apart t ht u hu other
    have := h.long ht
    have := h.long hu
    omega

theorem Blocks.null : 0 ∉ T := h.tiled.nonnull

theorem Blocks.next_tag {t : Nat} (ht : t ∈ F) : TagOrNull T (s.get .next t) :=
  fun more => h.free_sub (h.linked.next_mem t ht more).1

theorem Blocks.prev_tag {t : Nat} (ht : t ∈ F) : TagOrNull T (s.get .prev t) :=
  fun more => h.free_sub (h.linked.prev_mem t ht more).1

theorem Blocks.right_tag {t : Nat} (ht : t ∈ T) : TagOrNull T (s.get .splitRight t) :=
  fun more => (h.tiled.right_mem t ht more).1

theorem Blocks.head_tag {b : Int} (hb : b ∈ validBuckets) : TagOrNull T (s.freePages b) :=
  fun more => h.free_sub (h.linked.head_mem b hb more).1

end Reading

theorem Blocks.congr {s s' : Heap} {T F : Finset Nat} {hand : Nat} (h : Blocks s T F hand)
    (fields : ∀ t ∈ T, ∀ g, g ≠ .size → s'.get g t = s.get g t)
    (heads : ∀ b ∈ validBuckets, s'.freePages b = s.freePages b)
    (calls : s'.vmm.calls = s.vmm.calls) (cur : s'.vmm.heapCur = s.vmm.heapCur) :
    Blocks s' T F hand := by
  have indices : ∀ t ∈ T, s'.index t = s.index t := by
    intro t ht
    unfold Heap.index
    rw [fields t ht .index (by decide)]
  refine ⟨?_, ?_, h.free_sub, h.hand_loose, ?_, ?_, ?_, ?_, cur ▸ h.word⟩
  · rw [calls]
    exact h.tiled.congr (fun t ht => fields t ht .realSize (by decide))
      (fun t ht => fields t ht .splitLeft (by decide))
      (fun t ht => fields t ht .splitRight (by decide))
  · exact h.linked.congr heads (fun t ht => indices t (h.free_sub ht))
      (fun t ht => fields t (h.free_sub ht) .next (by decide))
      (fun t ht => fields t (h.free_sub ht) .prev (by decide))
  · intro t ht other
    rw [indices t ht]
    exact h.free_iff t ht other
  · intro t ht free
    rw [fields t ht .next (by decide), fields t ht .prev (by decide)]
    exact h.loose t ht free
  · intro t ht
    rw [fields t ht .magic (by decide)]
    exact h.magic t ht
  · rw [calls, cur]
    exact h.below

theorem Blocks.withVmm {s : Heap} {T F : Finset Nat} {hand : Nat} (h : Blocks s T F hand) {v : Vmm}
    (calls : chunkSet v.calls = chunkSet s.vmm.calls) (grown : s.vmm.heapCur ≤ v.heapCur)
    (word : v.heapCur + 0x400000 < 2 ^ 32) : Blocks { s with vmm := v } T F hand where
  tiled := by
    change Tiled sizeofTag (chunkSet v.calls) _ _ _ T
    rw [calls]
    exact h.tiled
  linked := h.linked
  free_sub := h.free_sub
  hand_loose := h.hand_loose
  free_iff := h.free_iff
  loose := h.loose
  magic := h.magic
  below := by
    change ∀ c ∈ chunkSet v.calls, ChunkBelow v.heapCur c
    rw [calls]
    intro c hc
    obtain ⟨low, whole⟩ := h.below c hc
    exact ⟨Nat.le_trans low grown, whole⟩
  word := word

theorem Blocks.weaken {s : Heap} {T F : Finset Nat} (h : Blocks s T F 0) {hand : Nat}
    (loose : hand ∉ F) : Blocks s T F hand :=
  ⟨h.tiled, h.linked, h.free_sub, loose, fun t ht _ => h.free_iff t ht (fun e => h.null (e ▸ ht)),
    h.loose, h.magic, h.below, h.word⟩

theorem signed_ofInt {i : Int} (low : -2 ^ 31 ≤ i) (high : i < 2 ^ 31) : signed (ofInt i) = i := by
  unfold signed ofInt
  split <;> omega

theorem Blocks.removeTag {s : Heap} {T F : Finset Nat} {hand : Nat} (h : Blocks s T F hand)
    {x : Nat} (hx : x ∈ F) : Blocks (s.removeTag x) T (F.erase x) hand := by
  have get := fun u hu => removeTag_get h.apart h.null s (h.free_sub hx) hu (h.prev_tag hx)
    (h.next_tag hx) (u := u)
  obtain ⟨vmm, _, _⟩ := removeTag_globals s x
  have known : x ≠ 0 := fun e => h.null (e ▸ h.free_sub hx)
  have indices : ∀ t ∈ T, t ≠ x → (s.removeTag x).index t = s.index t := by
    intro t ht other
    unfold Heap.index
    rw [get t ht .index]
    simp only [other, if_false]
  refine ⟨?_, ?_, ?_, ?_, ?_, ?_, ?_, ?_, ?_⟩
  · rw [vmm]
    exact h.tiled.congr (fun t ht => get t ht .realSize) (fun t ht => get t ht .splitLeft)
      (fun t ht => get t ht .splitRight)
  · refine h.linked.unlink hx ?_ (fun t ht other => indices t (h.free_sub ht) other) ?_ ?_
    · exact fun b _ => removeTag_freePages s x b
    · intro t ht other
      rw [get t (h.free_sub ht) .next]
      simp only [other, if_false]
    · intro t ht other
      rw [get t (h.free_sub ht) .prev]
      simp only [other, if_false]
  · exact (Finset.erase_subset x F).trans h.free_sub
  · exact fun mem => h.hand_loose (Finset.mem_of_mem_erase mem)
  · intro t ht other
    by_cases here : t = x
    · subst here
      have minus : (s.removeTag t).index t = -1 := by
        unfold Heap.index
        rw [get t ht .index]
        simp only [if_true]
        exact signed_ofInt (by decide) (by decide)
      rw [minus]
      simp
    · rw [indices t ht here, h.free_iff t ht other, Finset.mem_erase]
      simp [here]
  · intro t ht free
    rw [get t ht .next, get t ht .prev]
    by_cases here : t = x
    · simp [here]
    · have loose : t ∉ F := fun mem => free (Finset.mem_erase.mpr ⟨here, mem⟩)
      have next : t ≠ s.get .next x := fun e =>
        loose (e ▸ (h.linked.next_mem x hx (e ▸ fun z => h.null (z ▸ ht))).1)
      have prev : t ≠ s.get .prev x := fun e =>
        loose (e ▸ (h.linked.prev_mem x hx (e ▸ fun z => h.null (z ▸ ht))).1)
      simpa only [here, next, prev, if_false] using h.loose t ht loose
  · intro t ht
    rw [get t ht .magic]
    exact h.magic t ht
  · rw [vmm]
    exact h.below
  · rw [vmm]
    exact h.word

theorem Blocks.insertTag {s : Heap} {T F : Finset Nat} {x : Nat} (h : Blocks s T F x) (hx : x ∈ T)
    {index b : Int} (hb : s.realIndex x index = b) (valid : b ∈ validBuckets) :
    Blocks (s.insertTag x index) T (insert x F) 0 := by
  have clear := h.loose x hx h.hand_loose
  have get := fun u hu => insertTag_get h.apart h.null s hb hx hu (h.head_tag valid) clear.1 (u := u)
  obtain ⟨⟨vmm, _, _⟩, heads⟩ := insertTag_rest s x index
  have known : ∀ t ∈ T, t ≠ 0 := fun t ht e => h.null (e ▸ ht)
  have notHead : ∀ t ∈ T, t ∉ F → t ≠ s.freePages b := fun t ht free e =>
    free (e ▸ (h.linked.head_mem b valid (e ▸ known t ht)).1)
  have indices : ∀ t ∈ T, (s.insertTag x index).index t = if t = x then b else s.index t := by
    intro t ht
    unfold Heap.index
    rw [get t ht .index]
    dsimp only
    split
    · obtain ⟨low, high⟩ := valid
      unfold maxExp at high
      exact signed_ofInt (by omega) (by omega)
    · rfl
  refine ⟨?_, ?_, ?_, ?_, ?_, ?_, ?_, ?_, ?_⟩
  · rw [vmm]
    exact h.tiled.congr (fun t ht => get t ht .realSize) (fun t ht => get t ht .splitLeft)
      (fun t ht => get t ht .splitRight)
  · have fresh : ∀ t ∈ F, t ≠ x := fun t ht e => h.hand_loose (e ▸ ht)
    refine h.linked.push valid (known x hx) ?_ ⟨?_, ?_, ?_⟩ ?_ ?_ ?_
    · intro c _
      rw [heads, hb, Function.update_apply]
    · rw [indices x hx, if_pos rfl]
    · rw [get x hx .next]
      simp only [if_true]
    · rw [get x hx .prev]
      simpa only [notHead x hx h.hand_loose, if_false] using clear.2
    · intro t ht
      rw [indices t (h.free_sub ht), if_neg (fresh t ht)]
    · intro t ht
      rw [get t (h.free_sub ht) .next]
      simp only [fresh t ht, if_false]
    · exact fun t ht => get t (h.free_sub ht) .prev
  · exact Finset.insert_subset hx h.free_sub
  · rw [Finset.mem_insert, not_or]
    exact ⟨(known x hx).symm, fun mem => h.null (h.free_sub mem)⟩
  · intro t ht _
    rw [indices t ht, Finset.mem_insert]
    by_cases here : t = x
    · simp only [here, if_true, true_or, iff_true]
      exact valid.1
    · simp only [here, if_false, false_or]
      exact h.free_iff t ht here
  · intro t ht free
    rw [Finset.mem_insert, not_or] at free
    rw [get t ht .next, get t ht .prev]
    simpa only [free.1, notHead t ht free.2, if_false] using h.loose t ht free.2
  · intro t ht
    rw [get t ht .magic]
    exact h.magic t ht
  · rw [vmm]
    exact h.below
  · rw [vmm]
    exact h.word

theorem Blocks.retile {s s' : Heap} {T T' F : Finset Nat} {hand : Nat} (h : Blocks s T F hand)
    (tiled : Tiled sizeofTag (chunkSet s.vmm.calls) (s'.get .realSize) (s'.get .splitLeft)
      (s'.get .splitRight) T')
    (sub : T' ⊆ T) (free_sub : F ⊆ T')
    (fields : ∀ t ∈ T, ∀ g, g = .index ∨ g = .next ∨ g = .prev ∨ g = .magic →
      s'.get g t = s.get g t)
    (heads : s'.freePages = s.freePages) (vmm : s'.vmm = s.vmm) : Blocks s' T' F hand := by
  have indices : ∀ t ∈ T, s'.index t = s.index t := by
    intro t ht
    unfold Heap.index
    rw [fields t ht .index (by simp)]
  refine ⟨vmm ▸ tiled, ?_, free_sub, h.hand_loose, ?_, ?_, ?_, vmm ▸ h.below, vmm ▸ h.word⟩
  · exact h.linked.congr (fun b _ => congrFun heads b) (fun t ht => indices t (h.free_sub ht))
      (fun t ht => fields t (h.free_sub ht) .next (by simp))
      (fun t ht => fields t (h.free_sub ht) .prev (by simp))
  · intro t ht other
    rw [indices t (sub ht)]
    exact h.free_iff t (sub ht) other
  · intro t ht free
    rw [fields t (sub ht) .next (by simp), fields t (sub ht) .prev (by simp)]
    exact h.loose t (sub ht) free
  · intro t ht
    rw [fields t (sub ht) .magic (by simp)]
    exact h.magic t (sub ht)

theorem sizeofTag_pos : 0 < sizeofTag := by decide

theorem Blocks.sum {s : Heap} {T F : Finset Nat} {hand : Nat} (h : Blocks s T F hand) {t u : Nat}
    (hu : u ∈ T) (next : u = t + s.get .realSize t) :
    wrap (s.get .realSize t + s.get .realSize u) = s.get .realSize t + s.get .realSize u := by
  have fits := h.fits hu
  exact wrap_eq (by omega)

theorem Blocks.right_behind {s : Heap} {T F : Finset Nat} {hand tag : Nat} (h : Blocks s T F hand)
    (ht : tag ∈ T) (more : s.get .splitRight tag ≠ 0) :
    s.get .splitRight tag = tag + s.get .realSize tag ∧ s.get .splitRight tag ≠ tag := by
  obtain ⟨_, at_end, _⟩ := h.tiled.right_mem tag ht more
  have long := h.long ht
  constructor
  · exact at_end
  · omega

theorem Blocks.meltLeft {s : Heap} {T F : Finset Nat} {hand tag : Nat} (h : Blocks s T F hand)
    (ht : tag ∈ T) (free : tag ∉ F) (more : s.get .splitLeft tag ≠ 0) :
    Blocks (s.meltLeft tag).1 (T.erase tag) F hand := by
  obtain ⟨hl, forth⟩ := h.tiled.left_mem tag ht more
  have get := fun u hu => meltLeft_get h.apart h.null s ht hu hl (h.right_tag ht) (u := u)
  obtain ⟨⟨vmm, _, _⟩, heads⟩ := meltLeft_rest s tag
  have tagNull : tag ≠ 0 := fun e => h.null (e ▸ ht)
  obtain ⟨_, at_end, _⟩ := h.tiled.right_mem _ hl (forth.symm ▸ tagNull)
  refine h.retile ?_ (Finset.erase_subset tag T) ?_ ?_ heads vmm
  · refine h.tiled.merge sizeofTag_pos hl forth tagNull ?_ ?_ ?_
    · intro t mem _
      rw [get t mem .realSize]
      dsimp only
      rw [h.sum ht (forth.symm.trans at_end)]
    · exact fun t mem _ => get t mem .splitLeft
    · exact fun t mem _ => get t mem .splitRight
  · exact fun t mem => Finset.mem_erase.mpr ⟨fun e => free (e ▸ mem), h.free_sub mem⟩
  · rintro t mem g (rfl | rfl | rfl | rfl)
    · exact get t mem .index
    · exact get t mem .next
    · exact get t mem .prev
    · exact get t mem .magic

theorem Blocks.absorbRight {s : Heap} {T F : Finset Nat} {hand tag r : Nat} (h : Blocks s T F hand)
    (ht : tag ∈ T) (right : s.get .splitRight tag = r) (hr : r ∈ F) :
    Blocks (s.absorbRight tag) (T.erase r) (F.erase r) hand := by
  have memR := h.free_sub hr
  have rightNull : r ≠ 0 := fun e => h.null (e ▸ memR)
  obtain ⟨at_end, other⟩ := h.right_behind ht (right ▸ rightNull)
  rw [right] at at_end other
  have get := fun u hu => absorbRight_get h.apart h.null s ht hu right memR other
    (h.right_tag memR) (h.prev_tag hr) (h.next_tag hr) (u := u)
  have removed := fun u hu => removeTag_get h.apart h.null s memR hu (h.prev_tag hr)
    (h.next_tag hr) (u := u)
  obtain ⟨⟨vmm, _, _⟩, heads⟩ := absorbRight_rest s tag
  rw [right] at heads
  have out := h.removeTag hr
  have outVmm := (removeTag_globals s r).1
  refine out.retile ?_ (Finset.erase_subset r T) (Finset.erase_subset_erase r h.free_sub) ?_ heads
    (vmm.trans outVmm.symm)
  · refine out.tiled.merge sizeofTag_pos ht ((removed tag ht .splitRight).trans right) rightNull
      ?_ ?_ ?_
    · intro t mem _
      rw [get t mem .realSize, removed tag ht .realSize, removed r memR .realSize,
        removed t mem .realSize]
      dsimp only
      rw [h.sum memR at_end]
    · intro t mem _
      rw [get t mem .splitLeft, removed r memR .splitRight, removed t mem .splitLeft]
    · intro t mem _
      rw [get t mem .splitRight, removed r memR .splitRight, removed t mem .splitRight]
  · rintro t mem g (rfl | rfl | rfl | rfl)
    · exact get t mem .index
    · exact get t mem .next
    · exact get t mem .prev
    · exact get t mem .magic

theorem getexpShift_le (size count shift : Nat) : getexpShift size count shift ≤ shift + count := by
  induction count generalizing shift with
  | zero => exact Nat.le_refl _
  | succ count ih =>
    unfold getexpShift
    have := ih (shift + 1)
    split <;> omega

theorem getexp_lt (size : Nat) : getexp size < maxExp := by
  have := getexpShift_le size 24 8
  unfold getexp maxExp
  split <;> omega

theorem bucket_valid (size : Nat) : bucket size ∈ validBuckets := by
  have := getexp_lt size
  unfold bucket minExp
  refine ⟨?_, ?_⟩
  · split <;> omega
  · unfold maxExp at *
    split <;> omega

theorem realIndex_neg (s : Heap) (tag : Nat) :
    s.realIndex tag (-1) = bucket (wsub (s.get .realSize tag) sizeofTag) := if_pos (by decide)

theorem realIndex_bucket (s : Heap) (tag size : Nat) :
    s.realIndex tag (bucket size) = bucket size := by
  have := (bucket_valid size).1
  exact if_neg (by omega)

section Split

variable {s : Heap} {T F : Finset Nat} {tag n : Nat} (h : Blocks s T F 0) (ht : tag ∈ T)
  (room : s.get .size tag + 64 ≤ s.get .realSize tag) (hn : n = tag + (32 + s.get .size tag))
include h ht room hn

theorem Blocks.newTag_eq : s.newTag tag = n := by
  have := h.fits ht
  simp only [Heap.newTag, sizeofTag, wrap]
  omega

theorem Blocks.newTag_fresh : n ∉ T := h.tiled.fresh sizeofTag_pos ht (by omega) (by omega)

theorem Blocks.newTag_apart : HeadersApart (insert n T) := by
  have fits := h.fits ht
  refine h.apart.insert (by omega) ?_
  intro t mem
  by_cases here : t = tag
  · omega
  · have := h.tiled.apart t mem tag ht here
    have := h.long mem
    omega

theorem Blocks.cutTag_get {u : Nat} (hu : u ∈ insert n T) (g : TagField) :
    (s.cutTag tag).get g u = match g with
      | .magic => if u = n then liballocMagic else s.get .magic u
      | .realSize => if u = tag then 32 + s.get .size tag else
          if u = n then s.get .realSize tag - (32 + s.get .size tag) else s.get .realSize u
      | .next => if u = n then 0 else s.get .next u
      | .prev => if u = n then 0 else s.get .prev u
      | .splitLeft => if u = s.get .splitRight tag then n else if u = n then tag
          else s.get .splitLeft u
      | .splitRight => if u = tag then n else if u = n then s.get .splitRight tag
          else s.get .splitRight u
      | g => s.get g u := by
  have fits := h.fits ht
  have fresh := h.newTag_fresh ht room hn
  have rest : wsub (wsub (s.get .realSize tag) sizeofTag) (s.get .size tag) =
      s.get .realSize tag - (32 + s.get .size tag) := by
    simp only [wsub, wrap, sizeofTag]
    omega
  have kept : wsub (s.get .realSize tag) (s.get .realSize tag - (32 + s.get .size tag)) =
      32 + s.get .size tag := by
    simp only [wsub, wrap]
    omega
  have null : 0 ∉ insert n T := by
    rw [Finset.mem_insert, not_or]
    exact ⟨by omega, h.null⟩
  have rightOr : TagOrNull (insert n T) (s.get .splitRight tag) := fun more =>
    Finset.mem_insert_of_mem (h.right_tag ht more)
  have cut := RiseOS.cutTag_get (h.newTag_apart ht room hn) null s (Finset.mem_insert_of_mem ht) hu
    (h.newTag_eq ht room hn) (Finset.mem_insert_self n T) (fun e => fresh (e ▸ ht)) rightOr rest (g := g)
  rw [kept] at cut
  exact cut.trans (by cases g <;> rfl)

theorem Blocks.cutTag : Blocks (s.cutTag tag) (insert n T) F n := by
  have fresh := h.newTag_fresh ht room hn
  have get := fun u hu => h.cutTag_get ht room hn (u := u) hu
  have up : ∀ {t}, t ∈ T → t ∈ insert n T := Finset.mem_insert_of_mem
  have self : n ∈ insert n T := Finset.mem_insert_self n T
  have known : ∀ t ∈ T, t ≠ n := fun t mem e => fresh (e ▸ mem)
  have rightOther : n ≠ s.get .splitRight tag := fun e =>
    fresh (e ▸ (h.right_tag ht (fun z => by omega)))
  obtain ⟨⟨vmm, _, _⟩, heads⟩ := cutTag_rest s tag
  have old : ∀ t ∈ T, ∀ g, g = .index ∨ g = .next ∨ g = .prev ∨ g = .magic →
      (s.cutTag tag).get g t = s.get g t := by
    rintro t mem g (rfl | rfl | rfl | rfl)
    · exact get t (up mem) .index
    · exact (get t (up mem) .next).trans (if_neg (known t mem))
    · exact (get t (up mem) .prev).trans (if_neg (known t mem))
    · exact (get t (up mem) .magic).trans (if_neg (known t mem))
  have indices : ∀ t ∈ T, (s.cutTag tag).index t = s.index t := by
    intro t mem
    unfold Heap.index
    rw [old t mem .index (by simp)]
  refine ⟨?_, ?_, fun t mem => up (h.free_sub mem), fun mem => fresh (h.free_sub mem), ?_, ?_, ?_,
    ?_, ?_⟩
  · rw [vmm]
    refine h.tiled.split sizeofTag_pos ht hn (by unfold sizeofTag; omega)
      (by unfold sizeofTag; omega) ?_ ?_ ?_ ?_ ?_ ?_
    · intro t mem
      rw [get t (up mem) .realSize]
      simp only [known t mem, if_false]
    · rw [get n self .realSize]
      simp only [(known tag ht).symm, if_false, if_true]
    · intro t mem
      rw [get t (up mem) .splitLeft]
      simp only [known t mem, if_false]
    · rw [get n self .splitLeft]
      simp only [rightOther, if_false, if_true]
    · intro t mem
      rw [get t (up mem) .splitRight]
      simp only [known t mem, if_false]
    · rw [get n self .splitRight]
      simp only [(known tag ht).symm, if_false, if_true]
  · exact h.linked.congr (fun b _ => congrFun heads b) (fun t mem => indices t (h.free_sub mem))
      (fun t mem => old t (h.free_sub mem) .next (by simp))
      (fun t mem => old t (h.free_sub mem) .prev (by simp))
  · intro t mem other
    have memT := (Finset.mem_insert.mp mem).resolve_left other
    rw [indices t memT]
    exact h.free_iff t memT (fun z => h.null (z ▸ memT))
  · intro t mem loose
    rcases Finset.mem_insert.mp mem with rfl | memT
    · exact ⟨(get t self .next).trans (if_pos rfl), (get t self .prev).trans (if_pos rfl)⟩
    · rw [old t memT .next (by simp), old t memT .prev (by simp)]
      exact h.loose t memT loose
  · intro t mem
    rcases Finset.mem_insert.mp mem with rfl | memT
    · exact (get t self .magic).trans (if_pos rfl)
    · rw [old t memT .magic (by simp)]
      exact h.magic t memT
  · rw [vmm]
    exact h.below
  · rw [vmm]
    exact h.word

theorem Blocks.splitTag : Blocks (s.splitTag tag) (insert n T) (insert n F) 0 ∧
    ∀ t ∈ T, (s.splitTag tag).get .size t = s.get .size t ∧
      (s.splitTag tag).get .realSize t =
        if t = tag then 32 + s.get .size tag else s.get .realSize t := by
  have fresh := h.newTag_fresh ht room hn
  have cut := h.cutTag ht room hn
  have self : n ∈ insert n T := Finset.mem_insert_self n T
  have bucketN := realIndex_neg (s.cutTag tag) n
  have valid := bucket_valid (wsub ((s.cutTag tag).get .realSize n) sizeofTag)
  have clear := cut.loose n self cut.hand_loose
  have inserted := fun u hu => insertTag_get cut.apart cut.null (s.cutTag tag) bucketN self hu
    (cut.head_tag valid) clear.1 (u := u)
  unfold Heap.splitTag
  rw [h.newTag_eq ht room hn]
  refine ⟨cut.insertTag self bucketN valid, ?_⟩
  intro t mem
  have up : t ∈ insert n T := Finset.mem_insert_of_mem mem
  have other : t ≠ n := fun e => fresh (e ▸ mem)
  refine ⟨(inserted t up .size).trans (h.cutTag_get ht room hn up .size), ?_⟩
  refine (inserted t up .realSize).trans ((h.cutTag_get ht room hn up .realSize).trans ?_)
  simp only [other, if_false]

end Split

end RiseOS
