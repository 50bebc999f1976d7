import RiseOS.Heap.Contract
import RiseOS.Heap.Frame
import RiseOS.Heap.Search
import RiseOS.Library.Cover

/-! The order that malloc and free keep among the free blocks: no two of them are
neighbours, each is in the list of its size, and the counts of whole chunks are right. -/
namespace RiseOS
open Words Runs Links Tiling

/-- The free blocks of list `b` that take up a whole chunk. -/
def Heap.wholeIn (s : Heap) (F : Finset Nat) (b : Int) : Finset Nat :=
  F.filter fun t => s.index t = b ∧ s.complete t

structure Tidy (s : Heap) (T F : Finset Nat) : Prop where
  bases : ∀ c ∈ chunkSet s.vmm.calls, c.1 ∈ T
  melted : ∀ t ∈ F, s.get .splitRight t ∉ F
  sorted : ∀ t ∈ F, s.index t = bucket (wsub (s.get .realSize t) sizeofTag)
  counted : ∀ b ∈ validBuckets, s.completePages b = (s.wholeIn F b).card
  few : ∀ b ∈ validBuckets, s.completePages b ≤ maxComplete
  acyclic : Acyclic 0 (s.get .prev) F

/-- What the order among the free blocks depends on. -/
structure SameBlock (s s' : Heap) (t : Nat) : Prop where
  right : s'.get .splitRight t = s.get .splitRight t
  real : s'.get .realSize t = s.get .realSize t
  index : s'.get .index t = s.get .index t
  complete : s'.complete t ↔ s.complete t

theorem SameBlock.refl (s : Heap) (t : Nat) : SameBlock s s t := ⟨rfl, rfl, rfl, Iff.rfl⟩

theorem SameBlock.trans {s s' s'' : Heap} {t : Nat} (h : SameBlock s s' t) (k : SameBlock s' s'' t) :
    SameBlock s s'' t :=
  ⟨k.right.trans h.right, k.real.trans h.real, k.index.trans h.index, k.complete.trans h.complete⟩

theorem SameBlock.of_links {s s' : Heap} {t : Nat} (right : s'.get .splitRight t = s.get .splitRight t)
    (real : s'.get .realSize t = s.get .realSize t) (index : s'.get .index t = s.get .index t)
    (left : s'.get .splitLeft t = 0 ↔ s.get .splitLeft t = 0) : SameBlock s s' t := by
  refine ⟨right, real, index, ?_⟩
  unfold Heap.complete
  rw [right, left]

theorem SameBlock.indices {s s' : Heap} {t : Nat} (h : SameBlock s s' t) : s'.index t = s.index t := by
  unfold Heap.index
  rw [h.index]

section Frames

variable {s s' : Heap} {T T' F : Finset Nat} {x : Nat}

theorem wholeIn_congr {F' : Finset Nat} (same : ∀ t ∈ F', SameBlock s s' t) (b : Int) :
    s'.wholeIn F' b = s.wholeIn F' b := by
  apply Finset.filter_congr
  intro t ht
  rw [(same t ht).indices, (same t ht).complete]

theorem wholeIn_erase (s : Heap) (hx : x ∈ F) (b : Int) : ((s.wholeIn (F.erase x) b).card : Int) =
    (s.wholeIn F b).card - if s.index x = b ∧ s.complete x then 1 else 0 := by
  unfold Heap.wholeIn
  rw [Finset.filter_erase]
  by_cases listed : s.index x = b ∧ s.complete x
  · have mem : x ∈ F.filter fun t => s.index t = b ∧ s.complete t :=
      Finset.mem_filter.mpr ⟨hx, listed⟩
    have some_ := Finset.card_pos.mpr ⟨x, mem⟩
    rw [if_pos listed, Finset.card_erase_of_mem mem]
    omega
  · have not_mem : x ∉ F.filter fun t => s.index t = b ∧ s.complete t :=
      fun mem => listed (Finset.mem_filter.mp mem).2
    rw [if_neg listed, Finset.erase_eq_of_notMem not_mem]
    omega

theorem wholeIn_insert (s : Heap) (hx : x ∉ F) (b : Int) : ((s.wholeIn (insert x F) b).card : Int) =
    (s.wholeIn F b).card + if s.index x = b ∧ s.complete x then 1 else 0 := by
  unfold Heap.wholeIn
  rw [Finset.filter_insert]
  split
  · rw [Finset.card_insert_of_notMem fun mem => hx (Finset.mem_filter.mp mem).1]
    omega
  · omega

variable (tidy : Tidy s T F) (bases : ∀ c ∈ chunkSet s'.vmm.calls, c.1 ∈ T')
include tidy bases

theorem Tidy.congr (same : ∀ t ∈ F, SameBlock s s' t)
    (counts : ∀ b ∈ validBuckets, s'.completePages b = s.completePages b)
    (prevs : ∀ t ∈ F, s'.get .prev t = s.get .prev t) : Tidy s' T' F where
  bases := bases
  melted := by
    intro t ht
    rw [(same t ht).right]
    exact tidy.melted t ht
  sorted := by
    intro t ht
    rw [(same t ht).indices, (same t ht).real]
    exact tidy.sorted t ht
  counted := by
    intro b valid
    rw [counts b valid, wholeIn_congr same]
    exact tidy.counted b valid
  few := by
    intro b valid
    rw [counts b valid]
    exact tidy.few b valid
  acyclic := tidy.acyclic.congr prevs

theorem Tidy.remove (acyclic : Acyclic 0 (s'.get .prev) (F.erase x)) (hx : x ∈ F) (same : ∀ t ∈ F.erase x, SameBlock s s' t)
    (counts : ∀ b ∈ validBuckets, s'.completePages b =
      s.completePages b - if s.index x = b ∧ s.complete x then 1 else 0) :
    Tidy s' T' (F.erase x) where
  bases := bases
  melted := by
    intro t ht mem
    rw [(same t ht).right] at mem
    exact tidy.melted t (Finset.mem_of_mem_erase ht) (Finset.mem_of_mem_erase mem)
  sorted := by
    intro t ht
    rw [(same t ht).indices, (same t ht).real]
    exact tidy.sorted t (Finset.mem_of_mem_erase ht)
  counted := by
    intro b valid
    rw [counts b valid, wholeIn_congr same, wholeIn_erase s hx, tidy.counted b valid]
  few := by
    intro b valid
    have few := tidy.few b valid
    rw [counts b valid]
    split <;> omega
  acyclic := acyclic

theorem Tidy.add (acyclic : Acyclic 0 (s'.get .prev) (insert x F)) (hx : x ∉ F) (same : ∀ t ∈ F, SameBlock s s' t)
    (list : s'.index x = bucket (wsub (s'.get .realSize x) sizeofTag))
    (right : s'.get .splitRight x ∉ insert x F) (left : ∀ t ∈ F, s.get .splitRight t ≠ x)
    (counts : ∀ b ∈ validBuckets, s'.completePages b =
      s.completePages b + if s'.index x = b ∧ s'.complete x then 1 else 0)
    (few : ∀ b ∈ validBuckets, s'.completePages b ≤ maxComplete) : Tidy s' T' (insert x F) where
  bases := bases
  melted := by
    intro t ht
    rcases Finset.mem_insert.mp ht with rfl | old
    · exact right
    · rw [(same t old).right, Finset.mem_insert, not_or]
      exact ⟨left t old, tidy.melted t old⟩
  sorted := by
    intro t ht
    rcases Finset.mem_insert.mp ht with rfl | old
    · exact list
    · rw [(same t old).indices, (same t old).real]
      exact tidy.sorted t old
  counted := by
    intro b valid
    rw [counts b valid, wholeIn_insert s' hx, wholeIn_congr same, tidy.counted b valid]
  few := few
  acyclic := acyclic

end Frames

section Blocks

variable {s : Heap} {T F : Finset Nat} {hand : Nat} (h : Blocks s T F hand)
include h

theorem Blocks.valid {x : Nat} (hx : x ∈ F) : s.index x ∈ validBuckets := h.linked.bucket_valid x hx

/-- A block in the walk along list `b` is free, and of this list. -/
theorem Blocks.walk_list {b : Int} {tag t : Nat} (walk : InList s tag t)
    (start : tag ≠ 0 → tag ∈ F ∧ s.index tag = b) : t ∈ F ∧ s.index t = b := by
  induction walk with
  | here node => exact start node
  | next node _ ih =>
    refine ih fun more => ?_
    obtain ⟨mem, same, _⟩ := h.linked.next_mem _ (start node).1 more
    exact ⟨mem, same.trans (start node).2⟩

theorem Blocks.in_list {b : Int} (valid : b ∈ validBuckets) {t : Nat}
    (listed : InList s (s.freePages b) t) : t ∈ F ∧ s.index t = b := by
  refine h.walk_list listed fun node => ?_
  obtain ⟨mem, same, _⟩ := h.linked.head_mem b valid node
  exact ⟨mem, same⟩

theorem removeTag_same {x t : Nat} (hx : x ∈ F) (ht : t ∈ T) (other : t ≠ x) :
    SameBlock s (s.removeTag x) t := by
  have get := removeTag_get h.apart h.null s (h.free_sub hx) ht (h.prev_tag hx) (h.next_tag hx)
  exact .of_links (get .splitRight) (get .realSize) ((get .index).trans (if_neg other))
    (by rw [get .splitLeft])

theorem removeTag_acyclic (a : Acyclic 0 (s.get .prev) F) {x : Nat} (hx : x ∈ F) :
    Acyclic 0 ((s.removeTag x).get .prev) (F.erase x) := by
  refine a.unlink h.linked hx fun t ht other => ?_
  have get := removeTag_get h.apart h.null s (h.free_sub hx) (h.free_sub ht) (h.prev_tag hx)
    (h.next_tag hx) .prev
  exact get.trans (if_neg other)

theorem removeTag_complete {x t : Nat} (hx : x ∈ F) (ht : t ∈ T) :
    (s.removeTag x).complete t ↔ s.complete t := by
  have get := removeTag_get h.apart h.null s (h.free_sub hx) ht (h.prev_tag hx) (h.next_tag hx)
  unfold Heap.complete
  rw [get .splitLeft, get .splitRight]

end Blocks

section Insert

variable {s : Heap} {T F : Finset Nat} {x : Nat} (h : Blocks s T F x) (hx : x ∈ T) {index b : Int}
  (list : s.realIndex x index = b) (valid : b ∈ validBuckets)
include h hx list valid

theorem insertTag_same {t : Nat} (ht : t ∈ T) (other : t ≠ x) : SameBlock s (s.insertTag x index) t := by
  have get := insertTag_get h.apart h.null s list hx ht (h.head_tag valid)
    (h.loose x hx h.hand_loose).1
  exact .of_links (get .splitRight) (get .realSize) ((get .index).trans (if_neg other))
    (by rw [get .splitLeft])

theorem insertTag_acyclic (a : Acyclic 0 (s.get .prev) F) :
    Acyclic 0 ((s.insertTag x index).get .prev) (insert x F) := by
  have clear := h.loose x hx h.hand_loose
  have get := fun u (hu : u ∈ T) =>
    insertTag_get h.apart h.null s list hx hu (h.head_tag valid) clear.1 .prev
  refine a.push h.hand_loose ?_ fun t ht => get t (h.free_sub ht)
  refine (get x hx).trans ((if_neg fun first => ?_).trans clear.2)
  have node : s.freePages b ≠ 0 := first ▸ h.tiled.known hx
  exact h.hand_loose (first ▸ (h.linked.head_mem b valid node).1)

/-- The tag that goes into list `b`. -/
theorem insertTag_own : (s.insertTag x index).index x = b ∧
    (s.insertTag x index).get .realSize x = s.get .realSize x ∧
    (s.insertTag x index).get .splitLeft x = s.get .splitLeft x ∧
    (s.insertTag x index).get .splitRight x = s.get .splitRight x := by
  have get := insertTag_get h.apart h.null s list hx hx (h.head_tag valid)
    (h.loose x hx h.hand_loose).1
  refine ⟨?_, get .realSize, get .splitLeft, get .splitRight⟩
  have own := get .index
  dsimp only at own
  rw [if_pos rfl] at own
  obtain ⟨low, high⟩ := valid
  unfold maxExp at high
  unfold Heap.index
  rw [own]
  exact signed_ofInt (by omega) (by omega)

end Insert

/-! ### malloc -/

section Malloc

variable {s m : Heap} {T F : Finset Nat} (h : Blocks s T F 0) (tidy : Tidy s T F)
include h tidy

/-- The block found leaves its list, and its neighbours are in use. -/
theorem Tidy.takeFound {size found tag : Nat} (free : found ∈ F) (list : s.index found = bucket size)
    (obtained : s.obtainTag size found = some (m, tag)) : tag = found ∧
      Blocks m T (F.erase found) 0 ∧ Tidy m T (F.erase found) ∧
      m.get .splitRight found ∉ F.erase found ∧ m.get .realSize found = s.get .realSize found ∧
      Frame T s m := by
  have mem := h.free_sub free
  have node : found ≠ 0 := fun e => h.null (e ▸ mem)
  have out := h.removeTag free
  obtain ⟨vmm, _, _, counts⟩ := removeTag_globals s found
  have get := removeTag_get h.apart h.null s mem mem (h.prev_tag free) (h.next_tag free)
  have whole := removeTag_complete h free mem
  have same := fun t (ht : t ∈ F.erase found) => removeTag_same h free
    (h.free_sub (Finset.mem_of_mem_erase ht)) (Finset.ne_of_mem_erase ht)
  have alone : (s.removeTag found).get .splitRight found ∉ F.erase found := by
    rw [get .splitRight]
    exact fun e => tidy.melted found free (Finset.mem_of_mem_erase e)
  have bases : ∀ c ∈ chunkSet (s.removeTag found).vmm.calls, c.1 ∈ T := by
    rw [vmm]
    exact tidy.bases
  have acyclic := removeTag_acyclic h tidy.acyclic free
  have frame := h.removeTag_frame free
  unfold Heap.obtainTag at obtained
  rw [if_neg node] at obtained
  obtain ⟨made, rfl⟩ := Prod.mk.inj (Option.some.inj obtained)
  have real := get .realSize
  dsimp only at real made
  clear get obtained
  generalize s.removeTag found = r at *
  refine ⟨rfl, ?_⟩
  by_cases complete : s.complete found
  · rw [if_pos (whole.mpr complete)] at made
    subst made
    refine ⟨out.congr (fun _ _ _ _ => rfl) (fun _ _ => rfl) rfl rfl, ?_, alone, real,
      frame.trans (.of_mem rfl)⟩
    refine tidy.remove bases acyclic free (fun t ht => ?_) ?_
    · obtain ⟨right, real, index, complete⟩ := same t ht
      exact ⟨right, real, index, complete⟩
    intro b _
    unfold Heap.setCompletePages
    dsimp only
    rw [counts, Function.update_apply, list]
    by_cases here : b = bucket size
    · rw [if_pos here, if_pos ⟨here.symm, complete⟩, here]
    · rw [if_neg here, if_neg (fun e => here e.1.symm), sub_zero]
  · rw [if_neg (fun e => complete (whole.mp e))] at made
    subst made
    refine ⟨out, tidy.remove bases acyclic free same ?_, alone, real, frame⟩
    intro b _
    rw [counts, if_neg (fun e => complete e.2), sub_zero]

/-- A new chunk is one block in use. -/
theorem Tidy.takeNew (limits : Limits s.vmm) {size tag : Nat} (small : size < 2 ^ 32)
    (few : neededPages (wrap (sizeofTag + size)) ≤ 1025 ∨
      s.vmm.refuses (neededPages (wrap (sizeofTag + size))))
    (obtained : s.allocateNewTag size = some (m, tag)) :
    tag = 0 ∧ Blocks m T F 0 ∧ Tidy m T F ∧ Frame T s m ∨
    tag ∉ T ∧ tag ≠ 0 ∧ Blocks m (insert tag T) F 0 ∧ Tidy m (insert tag T) F ∧
      m.get .splitRight tag = 0 ∧
      m.get .realSize tag = 4096 * neededPages (wrap (sizeofTag + size)) ∧
      Frame (insert tag T) s m := by
  have least := (neededPages_enough (wrap (sizeofTag + size))).1
  rw [allocateNewTag_apart] at obtained
  generalize neededPages (wrap (sizeofTag + size)) = pages at *
  obtain ⟨v, r, call, limits', _, grown, outcome⟩ := liballocAlloc_grows s.vmm limits few
  have word : v.heapCur + 0x400000 < 2 ^ 32 := by
    have := limits'.below
    have := limits'.room.fits
    omega
  rw [call, Option.map_some] at obtained
  dsimp only at obtained
  rcases outcome with ⟨null, calls⟩ | ⟨node, few, cur, next, calls⟩
  · rw [if_pos null] at obtained
    obtain ⟨rfl, rfl⟩ := Prod.mk.inj (Option.some.inj obtained)
    refine .inl ⟨rfl, h.withVmm calls grown word, tidy.congr ?_ ?_ (fun _ _ => rfl) fun _ _ => rfl,
      .of_mem rfl⟩
    · change ∀ c ∈ chunkSet v.calls, c.1 ∈ T
      rw [calls]
      exact tidy.bases
    · exact fun t _ => ⟨rfl, rfl, rfl, Iff.rfl⟩
  · have real : wrap (pages * libPageSize) = 4096 * pages := by
      unfold libPageSize
      rw [Nat.mul_comm]
      exact wrap_eq (n := 4096 * pages) (by omega)
    rw [if_neg node, real] at obtained
    obtain ⟨rfl, rfl⟩ := Prod.mk.inj (Option.some.inj obtained)
    obtain ⟨fresh, blocks, _, len⟩ := h.newChunk cur node (cur ▸ next) word calls least few small
    have self : r ∈ insert r T := Finset.mem_insert_self r T
    have get := fun u hu => writeTag_get { s with vmm := v } blocks.apart self hu small
      (by omega : 4096 * pages < 2 ^ 32) (u := u)
    have old : ∀ t ∈ F, ∀ g, ({ s with vmm := v }.writeTag r size (4096 * pages)).get g t = s.get g t := by
      intro t free g
      have memT := h.free_sub free
      have other : t ≠ r := fun e => fresh (e ▸ memT)
      exact (get t (Finset.mem_insert_of_mem memT) g).trans (if_neg other)
    refine .inr ⟨fresh, node, blocks, tidy.congr ?_ ?_ (fun _ _ => rfl) ?_, ?_, len,
      writeTag_frame blocks.apart { s with vmm := v } self _ _⟩
    · change ∀ c ∈ chunkSet v.calls, c.1 ∈ insert r T
      rw [calls]
      rintro c (rfl | old)
      · exact self
      · exact Finset.mem_insert_of_mem (tidy.bases c old)
    · intro t free
      have same := old t free
      exact .of_links (same .splitRight) (same .realSize) (same .index) (by rw [same .splitLeft])
    · exact fun t free => old t free .prev
    · exact (get r self .splitRight).trans (if_pos rfl)

end Malloc

section Split

variable {s : Heap} {T F : Finset Nat} {tag n : Nat} (h : Blocks s T F 0) (ht : tag ∈ T)
  (free : tag ∉ F) (room : s.get .size tag + 64 ≤ s.get .realSize tag)
  (hn : n = tag + (32 + s.get .size tag))
include h ht room hn

theorem cutTag_same {t : Nat} (mem : t ∈ T) (other : t ≠ tag) : SameBlock s (s.cutTag tag) t := by
  have known : t ≠ n := fun e => h.newTag_fresh ht room hn (e ▸ mem)
  have get := h.cutTag_get ht room hn (Finset.mem_insert_of_mem mem)
  refine .of_links ?_ ?_ (get .index) ?_
  · exact (get .splitRight).trans ((if_neg other).trans (if_neg known))
  · exact (get .realSize).trans ((if_neg other).trans (if_neg known))
  · rw [get .splitLeft]
    dsimp only
    by_cases right : t = s.get .splitRight tag
    · have back := (h.tiled.right_mem tag ht (right ▸ h.tiled.known mem)).2.2
      have node := h.tiled.known ht
      rw [if_pos right, right, back]
      omega
    · rw [if_neg right, if_neg known]

include free

/-- What is left of the block is free, between two blocks that are not. -/
theorem Tidy.splitTag (tidy : Tidy s T F) (alone : s.get .splitRight tag ∉ F) :
    Tidy (s.splitTag tag) (insert n T) (insert n F) := by
  have fresh := h.newTag_fresh ht room hn
  have cut := h.cutTag ht room hn
  have self : n ∈ insert n T := Finset.mem_insert_self n T
  have node := h.tiled.known ht
  have list := realIndex_neg (s.cutTag tag) n
  have valid := bucket_valid (wsub ((s.cutTag tag).get .realSize n) sizeofTag)
  obtain ⟨index, real, left, right⟩ := insertTag_own cut self list valid
  have own := h.cutTag_get ht room hn self
  have known : ∀ t ∈ T, t ≠ n := fun t mem e => fresh (e ▸ mem)
  have onward : ∀ t ∈ T, s.get .splitRight t ≠ n := by
    intro t mem e
    exact fresh (e ▸ h.right_tag mem (by omega))
  have leftOf : (s.cutTag tag).get .splitLeft n = tag :=
    (own .splitLeft).trans ((if_neg (onward tag ht).symm).trans (if_pos rfl))
  have rightOf : (s.cutTag tag).get .splitRight n = s.get .splitRight tag :=
    (own .splitRight).trans ((if_neg (known tag ht).symm).trans (if_pos rfl))
  obtain ⟨cutVmm, _, _, cutCounts⟩ := (cutTag_rest s tag).1
  obtain ⟨vmm, _, _, counts⟩ := (insertTag_rest (s.cutTag tag) n (-1)).1
  have same := fun t (mem : t ∈ F) => (cutTag_same h ht room hn (h.free_sub mem)
    (fun e => free (e ▸ mem))).trans (insertTag_same cut self list valid
      (Finset.mem_insert_of_mem (h.free_sub mem)) (known t (h.free_sub mem)))
  unfold Heap.splitTag
  rw [h.newTag_eq ht room hn]
  have notWhole : ¬((s.cutTag tag).insertTag n (-1)).complete n := by
    rintro ⟨none, _⟩
    rw [left, leftOf] at none
    exact node none
  have pages : ∀ b, ((s.cutTag tag).insertTag n (-1)).completePages b = s.completePages b := by
    intro b
    rw [counts, cutCounts]
  have linked : Acyclic 0 ((s.cutTag tag).get .prev) F := tidy.acyclic.congr fun t mem =>
    (h.cutTag_get ht room hn (Finset.mem_insert_of_mem (h.free_sub mem)) .prev).trans
      (if_neg (known t (h.free_sub mem)))
  refine tidy.add ?_ (insertTag_acyclic cut self list valid linked)
    (fun mem => fresh (h.free_sub mem)) same ?_ ?_ (fun t mem => onward t (h.free_sub mem)) ?_ ?_
  · rw [vmm, cutVmm]
    exact fun c hc => Finset.mem_insert_of_mem (tidy.bases c hc)
  · rw [index, real]
  · rw [right, rightOf, Finset.mem_insert, not_or]
    exact ⟨onward tag ht, alone⟩
  · intro b _
    rw [pages, if_neg (fun e => notWhole e.2), add_zero]
  · intro b valid
    rw [pages]
    exact tidy.few b valid

end Split

section Use

variable {s : Heap} {T F : Finset Nat} (h : Blocks s T F 0) (tidy : Tidy s T F)
include h tidy

theorem Tidy.useTag {tag size : Nat} (ht : tag ∈ T) (free : tag ∉ F)
    (room : size + 32 ≤ s.get .realSize tag) (alone : s.get .splitRight tag ∉ F) :
    ∃ T' F', Blocks (s.useTag tag size) T' F' 0 ∧ Tidy (s.useTag tag size) T' F' ∧
      T' \ F' = T \ F ∧ T ⊆ T' ∧ Frame T' s (s.useTag tag size) := by
  have fits := h.fits ht
  have get := fun g u hu => get_set h.apart s .size g ht hu (v := size) (u := u) (by omega)
  have sizeOf : (s.set .size tag size).get .size tag = size := by
    rw [get .size tag ht, if_pos ⟨rfl, rfl⟩]
  have rest : ∀ t ∈ T, ∀ g, g ≠ .size → (s.set .size tag size).get g t = s.get g t := by
    intro t mem g other
    rw [get g t mem, if_neg (fun e => other e.2)]
  have marked : Blocks (s.set .size tag size) T F 0 := h.congr rest (fun _ _ => rfl) rfl rfl
  have tidyM : Tidy (s.set .size tag size) T F := by
    refine tidy.congr tidy.bases (fun t mem => ?_) (fun _ _ => rfl)
      fun t mem => rest t (h.free_sub mem) .prev (by decide)
    have same := rest t (h.free_sub mem)
    exact .of_links (same .splitRight (by decide)) (same .realSize (by decide))
      (same .index (by decide)) (by rw [same .splitLeft (by decide)])
  have realOf := rest tag ht .realSize (by decide)
  have aloneM : (s.set .size tag size).get .splitRight tag ∉ F := by
    rw [rest tag ht .splitRight (by decide)]
    exact alone
  have frame := set_frame h.apart s .size ht size
  unfold Heap.useTag
  dsimp only
  rw [realOf]
  generalize s.set .size tag size = m at marked tidyM sizeOf realOf aloneM frame
  split
  · rename_i big
    have enough : m.get .size tag + 64 ≤ m.get .realSize tag := by
      rw [sizeOf, realOf]
      exact split_room (by omega) room big.1
    have fresh := marked.newTag_fresh ht enough rfl
    refine ⟨_, _, (marked.splitTag ht enough rfl).1, tidyM.splitTag marked ht free enough rfl aloneM, ?_,
      Finset.subset_insert _ T, (frame.mono (Finset.subset_insert _ T)).trans
        (marked.splitTag_frame ht enough rfl)⟩
    rw [Finset.insert_sdiff_insert, Finset.sdiff_insert_of_notMem fresh]
  · exact ⟨T, F, marked, tidyM, rfl, Finset.Subset.refl T, frame⟩

/-- malloc returns NULL or one more block in use. -/
theorem Tidy.malloc (limits : Limits s.vmm) {size : Nat} (serves : s.Serves size)
    (small : size < 2 ^ 32) {found tag : Nat} {m : Heap}
    (searched : s.search size loopFuel (s.freePages (bucket size)) = some found)
    (obtained : s.obtainTag size found = some (m, tag)) :
    tag = 0 ∧ Blocks m T F 0 ∧ Tidy m T F ∧ Frame T s m ∨
    tag ≠ 0 ∧ ∃ T' F', Blocks (m.useTag tag size) T' F' 0 ∧ Tidy (m.useTag tag size) T' F' ∧
      T' \ F' = insert tag (T \ F) ∧ Frame T' s (m.useTag tag size) := by
  by_cases node : found = 0
  · have few : neededPages (wrap (sizeofTag + size)) ≤ 1025 ∨
        s.vmm.refuses (neededPages (wrap (sizeofTag + size))) := by
      rcases serves with ⟨low, few⟩ | ⟨_, refused⟩
      · rwa [show wrap (sizeofTag + size) = 32 + size from wrap_eq (n := 32 + size) low]
      · exact .inr refused
    rw [Heap.obtainTag, if_pos node] at obtained
    rcases tidy.takeNew h limits small few obtained with
      same | ⟨fresh, known, blocks, tidyM, last, long, frame⟩
    · exact .inl same
    · have room : size + 32 ≤ m.get .realSize tag := by
        rcases serves with ⟨low, _⟩ | ⟨_, refused⟩
        · have usage : wrap (sizeofTag + size) = 32 + size := wrap_eq (n := 32 + size) low
          have enough := (neededPages_enough (32 + size)).2
          rw [usage] at long
          omega
        · obtain ⟨u, asked, _⟩ := h.allocateNewTag_refused limits refused
          have same := congrArg Prod.snd (Option.some.inj (asked.symm.trans obtained))
          exact absurd same.symm known
      have loose : tag ∉ F := fun mem => fresh (h.free_sub mem)
      have alone : m.get .splitRight tag ∉ F := by
        rw [last]
        exact fun mem => h.null (h.free_sub mem)
      obtain ⟨T', F', blocks', tidy', held, sub, used⟩ := tidyM.useTag blocks
        (Finset.mem_insert_self tag T) loose room alone
      refine .inr ⟨known, T', F', blocks', tidy', ?_, (frame.mono sub).trans used⟩
      rw [held, Finset.insert_sdiff_of_notMem T loose]
  · obtain ⟨listed, fit⟩ := search_listed searched node
    obtain ⟨free, list⟩ := h.in_list (bucket_valid size) listed
    obtain ⟨rfl, blocks, tidyM, alone, real, frame⟩ := tidy.takeFound h free list obtained
    have mem := h.free_sub free
    have room : size + 32 ≤ m.get .realSize tag := by
      have long := h.long mem
      have short := h.fits mem
      rcases serves with ⟨low, _⟩ | ⟨none, _⟩
      · unfold Heap.fitTest at fit
        rw [real]
        simp only [wsub, wrap, sizeofTag] at fit
        omega
      · exact absurd (Option.some.inj (searched.symm.trans none)) node
    obtain ⟨T', F', blocks', tidy', held, sub, used⟩ := tidyM.useTag blocks mem
      (Finset.notMem_erase tag F) room alone
    refine .inr ⟨node, T', F', blocks', tidy', ?_, (frame.mono sub).trans used⟩
    rw [held, Finset.sdiff_erase mem]

end Use

/-! ### free -/

section Melt

variable {s : Heap} {T F : Finset Nat} {tag : Nat} (h : Blocks s T F 0) (ht : tag ∈ T)
include h ht

theorem meltLeft_same (more : s.get .splitLeft tag ≠ 0) {t : Nat} (mem : t ∈ T)
    (other : t ≠ s.get .splitLeft tag) : SameBlock s (s.meltLeft tag).1 t := by
  have memL := (h.tiled.left_mem tag ht more).1
  have get := meltLeft_get h.apart h.null s ht mem memL (h.right_tag ht)
  refine .of_links ((get .splitRight).trans (if_neg other)) ((get .realSize).trans (if_neg other))
    (get .index) ?_
  rw [get .splitLeft]
  dsimp only
  by_cases right : t = s.get .splitRight tag
  · have back := (h.tiled.right_mem tag ht (right ▸ h.tiled.known mem)).2.2
    have node := h.tiled.known ht
    rw [if_pos right, right, back]
    omega
  · rw [if_neg right]

theorem absorbRight_same {r : Nat} (right : s.get .splitRight tag = r) (hr : r ∈ F) {t : Nat}
    (mem : t ∈ T) (other : t ≠ tag) (behind : t ≠ r) : SameBlock s (s.absorbRight tag) t := by
  have memR := h.free_sub hr
  have apart := (h.right_behind ht (right ▸ h.tiled.known memR)).2
  rw [right] at apart
  have get := absorbRight_get h.apart h.null s ht mem right memR apart (h.right_tag memR)
    (h.prev_tag hr) (h.next_tag hr)
  have removed := removeTag_get h.apart h.null s memR mem (h.prev_tag hr) (h.next_tag hr)
  refine .of_links ((get .splitRight).trans (if_neg other)) ((get .realSize).trans (if_neg other))
    ((get .index).trans ((removed .index).trans (if_neg behind))) ?_
  rw [get .splitLeft]
  dsimp only
  by_cases next : t = s.get .splitRight r
  · have back := (h.tiled.right_mem r memR (next ▸ h.tiled.known mem)).2.2
    have node := h.tiled.known ht
    have nodeR := h.tiled.known memR
    rw [if_pos next, next, back]
    omega
  · rw [if_neg next]

/-- A free neighbour is not a whole chunk. -/
theorem Tidy.absorbRight (tidy : Tidy s T F) (free : tag ∉ F) {r : Nat}
    (right : s.get .splitRight tag = r) (hr : r ∈ F) :
    Tidy (s.absorbRight tag) (T.erase r) (F.erase r) := by
  have memR := h.free_sub hr
  have node := h.tiled.known memR
  have back := (h.tiled.right_mem tag ht (right ▸ node)).2.2
  rw [right] at back
  obtain ⟨vmm, _, _, counts⟩ := (absorbRight_rest s tag).1
  have notWhole : ¬s.complete r := by
    rintro ⟨none, _⟩
    exact h.tiled.known ht (back.symm.trans none)
  have acyclic : Acyclic 0 ((s.absorbRight tag).get .prev) (F.erase r) := by
    have apart := (h.right_behind ht (right ▸ node)).2
    rw [right] at apart
    refine (removeTag_acyclic h tidy.acyclic hr).congr fun t mem => ?_
    exact absorbRight_get h.apart h.null s ht (h.free_sub (Finset.mem_of_mem_erase mem)) right memR
      apart (h.right_tag memR) (h.prev_tag hr) (h.next_tag hr) .prev
  refine tidy.remove ?_ acyclic hr ?_ ?_
  · rw [vmm]
    refine fun c hc => Finset.mem_erase.mpr ⟨?_, tidy.bases c hc⟩
    refine h.tiled.inner sizeofTag_pos memR (back.symm ▸ h.tiled.known ht) hc ?_
    obtain ⟨_, pages, least, _, size⟩ := h.below c hc
    omega
  · intro t mem
    obtain ⟨behind, memF⟩ := Finset.mem_erase.mp mem
    exact absorbRight_same h ht right hr (h.free_sub memF) (fun e => free (e ▸ memF)) behind
  · intro b _
    rw [counts, if_neg (fun e => notWhole e.2), sub_zero]

theorem Tidy.meltLeft (tidy : Tidy s T F) (free : tag ∉ F) (more : s.get .splitLeft tag ≠ 0)
    (hl : s.get .splitLeft tag ∈ F) :
    Tidy ((s.meltLeft tag).1.removeTag (s.get .splitLeft tag)) (T.erase tag)
      (F.erase (s.get .splitLeft tag)) := by
  have melted := h.meltLeft ht free more
  have forth := (h.tiled.left_mem tag ht more).2
  obtain ⟨vmmL, _, _, countsL⟩ := (meltLeft_rest s tag).1
  obtain ⟨vmm, _, _, counts⟩ := removeTag_globals (s.meltLeft tag).1 (s.get .splitLeft tag)
  have notWhole : ¬s.complete (s.get .splitLeft tag) := by
    rintro ⟨_, none⟩
    exact h.tiled.known ht (forth.symm.trans none)
  have acyclic : Acyclic 0 ((s.meltLeft tag).1.get .prev) F := tidy.acyclic.congr fun t mem =>
    meltLeft_get h.apart h.null s ht (h.free_sub mem) (h.free_sub hl) (h.right_tag ht) .prev
  refine tidy.remove ?_ (removeTag_acyclic melted acyclic hl) hl ?_ ?_
  · rw [vmm, vmmL]
    refine fun c hc => Finset.mem_erase.mpr ⟨?_, tidy.bases c hc⟩
    refine h.tiled.inner sizeofTag_pos ht more hc ?_
    obtain ⟨_, pages, least, _, size⟩ := h.below c hc
    omega
  · intro t mem
    obtain ⟨other, memF⟩ := Finset.mem_erase.mp mem
    exact (meltLeft_same h ht more (h.free_sub memF) other).trans
      (removeTag_same melted hl (melted.free_sub memF) other)
  · intro b _
    rw [counts, countsL, if_neg (fun e => notWhole e.2), sub_zero]

end Melt

theorem held_left {T F : Finset Nat} {tag l : Nat} (hl : l ∈ F) :
    (T.erase tag \ F.erase l).erase l = (T \ F).erase tag := by
  ext t
  have free : t = l → t ∈ F := fun e => e ▸ hl
  simp only [Finset.mem_erase, Finset.mem_sdiff]
  tauto

theorem held_right {T F : Finset Nat} {r : Nat} (hr : r ∈ F) : T.erase r \ F.erase r = T \ F := by
  ext t
  have free : t = r → t ∈ F := fun e => e ▸ hr
  simp only [Finset.mem_erase, Finset.mem_sdiff]
  tauto

/-- No free block is left of the one in hand. -/
theorem Tidy.meltLoop {s m : Heap} {T F : Finset Nat} {fuel tag tag' : Nat} (h : Blocks s T F 0)
    (tidy : Tidy s T F) (ht : tag ∈ T) (free : tag ∉ F)
    (call : s.meltLoop fuel tag = some (m, tag')) : ∃ T₁ F₁, Blocks m T₁ F₁ 0 ∧ Tidy m T₁ F₁ ∧
      tag' ∈ T₁ ∧ tag' ∉ F₁ ∧ (T₁ \ F₁).erase tag' = (T \ F).erase tag ∧
      m.get .splitLeft tag' ∉ F₁ ∧ T₁ ⊆ T ∧ Frame T s m := by
  induction fuel generalizing s T F tag with
  | zero => cases call
  | succ fuel ih =>
    rw [Heap.meltLoop] at call
    split at call
    · rename_i more
      have hl := h.left_free ht more
      have apart : s.get .splitLeft tag ≠ tag := fun e => free (e ▸ hl)
      have sub := Finset.erase_subset tag T
      obtain ⟨T', F', blocks, tidy', mem, loose, held, left, sub', frame⟩ := ih
        ((h.meltLeft ht free more.1).removeTag hl) (tidy.meltLeft h ht free more.1 hl)
        (Finset.mem_erase.mpr ⟨apart, h.free_sub hl⟩) (Finset.notMem_erase _ F) call
      refine ⟨T', F', blocks, tidy', mem, loose, held.trans (held_left hl), left, sub'.trans sub, ?_⟩
      exact (h.melt_frame ht free more.1 hl).trans (frame.mono sub)
    · rename_i last
      obtain ⟨rfl, rfl⟩ := Prod.mk.inj (Option.some.inj call)
      refine ⟨T, F, h, tidy, ht, free, rfl, fun mem => last ⟨h.tiled.known (h.free_sub mem), ?_⟩,
        Finset.Subset.refl T, .refl T s⟩
      exact (h.free_iff _ (h.free_sub mem) (h.tiled.known (h.free_sub mem))).mpr mem

theorem Tidy.absorbLoop {s m : Heap} {T F : Finset Nat} {fuel tag : Nat} (h : Blocks s T F 0)
    (tidy : Tidy s T F) (ht : tag ∈ T) (free : tag ∉ F) (left : s.get .splitLeft tag ∉ F)
    (call : s.absorbLoop fuel tag = some m) : ∃ T' F', Blocks m T' F' 0 ∧ Tidy m T' F' ∧
      tag ∈ T' ∧ tag ∉ F' ∧ T' \ F' = T \ F ∧ m.get .splitLeft tag ∉ F' ∧
      m.get .splitRight tag ∉ F' ∧ T' ⊆ T ∧ Frame T s m := by
  induction fuel generalizing s T F with
  | zero => cases call
  | succ fuel ih =>
    rw [Heap.absorbLoop] at call
    split at call
    · rename_i more
      have hr := h.right_free ht more
      have memR := h.free_sub hr
      obtain ⟨at_end, apart⟩ := h.right_behind ht more.1
      have get := absorbRight_get h.apart h.null s ht ht rfl memR apart (h.right_tag memR)
        (h.prev_tag hr) (h.next_tag hr) .splitLeft
      have behind : tag ≠ s.get .splitRight (s.get .splitRight tag) := by
        intro e
        have next := (h.tiled.right_mem _ memR (e ▸ h.tiled.known ht)).2.1
        have long := h.long ht
        have longR := h.long memR
        omega
      dsimp only at get
      rw [if_neg behind] at get
      have sub := Finset.erase_subset (s.get .splitRight tag) T
      obtain ⟨T', F', blocks, tidy', mem, loose, held, leftM, rightM, sub', frame⟩ := ih
        (h.absorbRight ht rfl hr) (tidy.absorbRight h ht free rfl hr)
        (Finset.mem_erase.mpr ⟨apart.symm, ht⟩) (fun e => free (Finset.mem_of_mem_erase e))
        (by rw [get]; exact fun e => left (Finset.mem_of_mem_erase e)) call
      refine ⟨T', F', blocks, tidy', mem, loose, held.trans (held_right hr), leftM, rightM,
        sub'.trans sub, ?_⟩
      exact (h.absorbRight_frame ht rfl hr).trans (frame.mono sub)
    · rename_i last
      obtain rfl := Option.some.inj call
      refine ⟨T, F, h, tidy, ht, free, rfl, left,
        fun mem => last ⟨h.tiled.known (h.free_sub mem), ?_⟩, Finset.Subset.refl T, .refl T s⟩
      exact (h.free_iff _ (h.free_sub mem) (h.tiled.known (h.free_sub mem))).mpr mem

section PutBack

variable {s s' : Heap} {T F : Finset Nat} {tag : Nat} (h : Blocks s T F 0) (tidy : Tidy s T F)
  (ht : tag ∈ T) (free : tag ∉ F) (left : s.get .splitLeft tag ∉ F)
  (right : s.get .splitRight tag ∉ F)
include h tidy ht free left right

/-- The block goes into the list of its size; `r` is the heap with its count. -/
theorem Tidy.toList {r : Heap} (blocks : Blocks r T F 0) (vmm : r.vmm = s.vmm)
    (same : ∀ t ∈ T, SameBlock s r t)
    (counts : ∀ b ∈ validBuckets, r.completePages b = s.completePages b +
      if bucket (wsub (s.get .realSize tag) sizeofTag) = b ∧ s.complete tag then 1 else 0)
    (few : ∀ b ∈ validBuckets, r.completePages b ≤ maxComplete)
    (acyclic : Acyclic 0 (r.get .prev) F) :
    Blocks (r.insertTag tag (bucket (wsub (s.get .realSize tag) sizeofTag))) T (insert tag F) 0 ∧
      Tidy (r.insertTag tag (bucket (wsub (s.get .realSize tag) sizeofTag))) T (insert tag F) ∧
      Frame T r (r.insertTag tag (bucket (wsub (s.get .realSize tag) sizeofTag))) := by
  have loose := blocks.weaken free
  have valid := bucket_valid (wsub (s.get .realSize tag) sizeofTag)
  have list := realIndex_bucket r tag (wsub (s.get .realSize tag) sizeofTag)
  obtain ⟨index, real, leftOf, rightOf⟩ := insertTag_own loose ht list valid
  obtain ⟨vmmI, _, _, countsI⟩ :=
    (insertTag_rest r tag (bucket (wsub (s.get .realSize tag) sizeofTag))).1
  have own := same tag ht
  have whole : (r.insertTag tag (bucket (wsub (s.get .realSize tag) sizeofTag))).complete tag ↔
      s.complete tag := by
    rw [← own.complete]
    unfold Heap.complete
    rw [leftOf, rightOf]
  refine ⟨(blocks.toList ht free _).1,
    tidy.add ?_ (insertTag_acyclic loose ht list valid acyclic) free ?_ ?_ ?_ ?_ ?_ ?_,
    insertTag_frame blocks.apart r ht list (blocks.head_tag valid)⟩
  · rw [vmmI, vmm]
    exact tidy.bases
  · intro t mem
    have memT := h.free_sub mem
    exact (same t memT).trans (insertTag_same loose ht list valid memT fun e => free (e ▸ mem))
  · rw [index, real, own.real]
  · rw [rightOf, own.right, Finset.mem_insert, not_or]
    refine ⟨fun e => ?_, right⟩
    have node := h.tiled.known ht
    exact (h.right_behind ht (e.symm ▸ node)).2 e
  · intro t mem e
    have back := (h.tiled.right_mem t (h.free_sub mem) (e.symm ▸ h.tiled.known ht)).2.2
    rw [e] at back
    exact left (back ▸ mem)
  · intro b valid
    rw [countsI, counts b valid, index]
    simp only [whole]
  · intro b valid
    rw [countsI]
    exact few b valid

/-- A whole chunk goes into the list of its size, and is one more of it. -/
theorem Tidy.keepChunk (whole : s.complete tag) {i : Int}
    (list : bucket (wsub (s.get .realSize tag) sizeofTag) = i) (room : s.completePages i ≠ maxComplete) :
    Blocks ((s.setCompletePages i (s.completePages i + 1)).insertTag tag i) T (insert tag F) 0 ∧
      Tidy ((s.setCompletePages i (s.completePages i + 1)).insertTag tag i) T (insert tag F) ∧
      Frame T s ((s.setCompletePages i (s.completePages i + 1)).insertTag tag i) := by
  have pages : ∀ b, (s.setCompletePages i (s.completePages i + 1)).completePages b =
      s.completePages b + if i = b ∧ s.complete tag then 1 else 0 := by
    intro b
    unfold Heap.setCompletePages
    dsimp only
    rw [Function.update_apply]
    by_cases here : b = i
    · rw [if_pos here, if_pos ⟨here.symm, whole⟩, here]
    · rw [if_neg here, if_neg (fun e => here e.1.symm), add_zero]
  have few : ∀ b ∈ validBuckets,
      (s.setCompletePages i (s.completePages i + 1)).completePages b ≤ maxComplete := by
    intro b here
    have before := tidy.few b here
    rw [pages b]
    split
    · rename_i same
      rw [same.1] at room
      omega
    · omega
  have counted : Blocks (s.setCompletePages i (s.completePages i + 1)) T F 0 :=
    h.congr (fun _ _ _ _ => rfl) (fun _ _ => rfl) rfl rfl
  obtain ⟨blocks', tidy', frame⟩ := tidy.toList h ht free left right counted rfl
    (fun t _ => ⟨rfl, rfl, rfl, Iff.rfl⟩) (fun b _ => list ▸ pages b) few tidy.acyclic
  rw [list] at blocks' tidy' frame
  exact ⟨blocks', tidy', frame⟩

omit h ht free left right in
/-- Its chunk goes back to the page hooks. -/
theorem Tidy.dropChunk {v : Vmm} (calls : chunkSet v.calls = { c ∈ chunkSet s.vmm.calls | c.1 ≠ tag }) :
    Tidy { s with vmm := v } (T.erase tag) F := by
  refine tidy.congr ?_ (fun t _ => ⟨rfl, rfl, rfl, Iff.rfl⟩) (fun _ _ => rfl) fun _ _ => rfl
  change ∀ c ∈ chunkSet v.calls, c.1 ∈ T.erase tag
  rw [calls]
  rintro c ⟨old, other⟩
  exact Finset.mem_erase.mpr ⟨other, tidy.bases c old⟩

omit h ht free left right in
theorem Tidy.unlock : Tidy s.liballocUnlock T F :=
  tidy.congr tidy.bases (fun _ _ => ⟨rfl, rfl, rfl, Iff.rfl⟩) (fun _ _ => rfl) fun _ _ => rfl

/-- The block goes into its list, or its chunk back to the page hooks. -/
theorem Tidy.putBack (limits : Limits s.vmm) (call : s.putBack tag = some s') :
    ∃ T' F', Blocks s' T' F' 0 ∧ Tidy s' T' F' ∧ T' \ F' = (T \ F).erase tag ∧ Frame T s s' := by
  have held : T \ insert tag F = (T \ F).erase tag := by
    ext t
    simp only [Finset.mem_erase, Finset.mem_sdiff, Finset.mem_insert]
    tauto
  rw [putBack_apart] at call
  split at call
  · rename_i whole
    split at call
    · rename_i full
      obtain ⟨pages, least, size, back⟩ := h.wholeChunk ht whole full
      have inside := (h.below _ back.chunk).1
      rw [size, neededPages_whole least] at call
      obtain ⟨v, r, asked, _, cur, _, calls⟩ := liballocFree_drops s.vmm limits back.few inside
      rw [asked, Option.map_some] at call
      obtain rfl := Option.some.inj call
      have dropped := h.dropChunk ht free whole calls cur
      refine ⟨_, _, dropped.withLock 0, (tidy.dropChunk calls).unlock, ?_, .of_mem rfl⟩
      rw [Finset.erase_sdiff_comm]
    · rename_i room
      obtain rfl := Option.some.inj call
      obtain ⟨blocks', tidy', frame⟩ := tidy.keepChunk h ht free left right whole rfl room
      exact ⟨T, insert tag F, blocks'.withLock 0, tidy'.unlock, held, frame⟩
  · rename_i part
    obtain rfl := Option.some.inj call
    obtain ⟨blocks', tidy', frame⟩ := tidy.toList h ht free left right h rfl
      (fun t _ => .refl s t) (fun b _ => by rw [if_neg (fun e => part e.2), add_zero]) tidy.few
      tidy.acyclic
    exact ⟨T, insert tag F, blocks'.withLock 0, tidy'.unlock, held, frame⟩

end PutBack

/-- free takes the block from those in use. -/
theorem Tidy.free {s s' : Heap} {T F : Finset Nat} {tag : Nat} (h : Blocks s T F 0)
    (tidy : Tidy s T F) (limits : Limits s.vmm) (unlocked : s.lock = 0) (ht : tag ∈ T)
    (free : tag ∉ F) (call : s.free (32 + tag) = some s') :
    ∃ T' F', Blocks s' T' F' 0 ∧ Tidy s' T' F' ∧ T' \ F' = (T \ F).erase tag ∧ Frame T s s' := by
  have fits := h.fits ht
  have back : wsub (32 + tag) sizeofTag = tag := by
    simp only [wsub, wrap, sizeofTag]
    omega
  have magic : ({ s with lock := 1 } : Heap).get .magic tag = liballocMagic := h.magic tag ht
  unfold Heap.free at call
  rw [if_neg (by omega), show s.liballocLock = some { s with lock := 1 } from if_pos unlocked,
    Option.bind_some] at call
  dsimp only at call
  rw [back, if_neg (fun e => e magic)] at call
  simp only [Option.bind_eq_some_iff] at call
  obtain ⟨⟨a, tag'⟩, melted, m, absorbed, put⟩ := call
  have locked : Tidy ({ s with lock := 1 } : Heap) T F :=
    tidy.congr tidy.bases (fun t _ => ⟨rfl, rfl, rfl, Iff.rfl⟩) (fun _ _ => rfl) fun _ _ => rfl
  obtain ⟨TA, FA, blocksA, tidyA, memA, freeA, heldA, leftA, subA, frameA⟩ :=
    locked.meltLoop (h.withLock 1) ht free melted
  obtain ⟨TB, FB, blocksB, tidyB, memB, freeB, heldB, leftB, rightB, subB, frameB⟩ :=
    tidyA.absorbLoop blocksA memA freeA leftA absorbed
  have limitsB : Limits m.vmm := by
    rw [absorbLoop_vmm absorbed, meltLoop_vmm melted]
    exact limits
  obtain ⟨T', F', blocks, tidy', held, frame⟩ :=
    tidyB.putBack blocksB memB freeB leftB rightB limitsB put
  refine ⟨T', F', blocks, tidy', held.trans ?_, ?_⟩
  · rw [heldB]
    exact heldA
  · have start : Frame T s { s with lock := 1 } := .of_mem rfl
    exact start.trans (frameA.trans ((frameB.mono subA).trans (frame.mono (subB.trans subA))))

end RiseOS
