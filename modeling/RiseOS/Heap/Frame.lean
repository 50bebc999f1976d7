import RiseOS.Heap.Free

/-! Which bytes the operations on tags write: those of headers, and no others. -/
namespace RiseOS
open Words

/-- Outside the headers of `T` the bytes are the same. -/
def Frame (T : Finset Nat) (s s' : Heap) : Prop :=
  ∀ a, a < 2 ^ 32 → (∀ t ∈ T, ¬(t ≤ a ∧ a < t + sizeofTag)) → s'.mem a = s.mem a

theorem Frame.refl (T : Finset Nat) (s : Heap) : Frame T s s := fun _ _ _ => rfl

theorem Frame.of_mem {T : Finset Nat} {s s' : Heap} (same : s'.mem = s.mem) : Frame T s s' :=
  fun _ _ _ => congrFun same _

theorem Frame.trans {T : Finset Nat} {s s' s'' : Heap} (h : Frame T s s') (k : Frame T s' s'') :
    Frame T s s'' := fun a word outside => (k a word outside).trans (h a word outside)

theorem Frame.mono {T T' : Finset Nat} {s s' : Heap} (h : Frame T s s') (sub : T ⊆ T') :
    Frame T' s s' := fun a word outside => h a word fun t mem => outside t (sub mem)

section Operations

variable {T : Finset Nat} (apart : HeadersApart T) (s : Heap)
include apart

theorem set_frame (f : TagField) {t : Nat} (ht : t ∈ T) (v : Nat) : Frame T s (s.set f t v) := by
  intro a word outside
  have far := outside t ht
  have fits := apart.1 t ht
  have offset := (offset_lt f).1
  unfold sizeofTag at far
  refine store32_other _ _ _ _ ?_
  simp only [wsub, wrap]
  omega

theorem setUnlessNull_frame (f : TagField) {t : Nat} (ht : TagOrNull T t) (v : Nat) :
    Frame T s (s.setUnlessNull f t v) := by
  unfold Heap.setUnlessNull
  split
  · rename_i node
    exact set_frame apart s f (ht node) v
  · exact Frame.refl T s

theorem removeTag_frame {tag : Nat} (ht : tag ∈ T) (hp : TagOrNull T (s.get .prev tag))
    (hn : TagOrNull T (s.get .next tag)) (null : 0 ∉ T) : Frame T s (s.removeTag tag) := by
  have low := fun g => get_lt s g tag
  have head : ∀ u : Heap, (if s.freePages (s.index tag) = tag then
      s.setFreePages (s.index tag) (s.get .next tag) else s) = u → Frame T s u ∧
        ∀ g t, u.get g t = s.get g t := by
    rintro u rfl
    split
    · exact ⟨.of_mem rfl, fun _ _ => rfl⟩
    · exact ⟨.refl T s, fun _ _ => rfl⟩
  unfold Heap.removeTag
  dsimp only
  obtain ⟨frame, same⟩ := head _ rfl
  generalize (if s.freePages (s.index tag) = tag then
    s.setFreePages (s.index tag) (s.get .next tag) else s) = u at frame same
  have mid := setUnlessNull_frame apart u .next (t := u.get .prev tag) (by rw [same]; exact hp)
    (u.get .next tag)
  have after := fun g => get_setUnlessNull apart null u .next g (u := tag) (t := u.get .prev tag)
    (v := u.get .next tag) (by rw [same]; exact hp) ht (by rw [same]; exact low .next)
  generalize u.setUnlessNull .next (u.get .prev tag) (u.get .next tag) = w at mid after
  have nextOf : TagOrNull T (w.get .next tag) := by
    rw [after]
    split
    · rw [same]
      exact hn
    · rw [same]
      exact hn
  exact frame.trans (mid.trans ((setUnlessNull_frame apart w .prev nextOf _).trans
    ((set_frame apart _ _ ht _).trans ((set_frame apart _ _ ht _).trans (set_frame apart _ _ ht _)))))

theorem insertTag_frame {tag : Nat} (ht : tag ∈ T) {index b : Int} (list : s.realIndex tag index = b)
    (hh : TagOrNull T (s.freePages b)) : Frame T s (s.insertTag tag index) := by
  have first := set_frame apart s .index ht (ofInt b)
  unfold Heap.insertTag
  dsimp only
  rw [list, freePages_set]
  by_cases empty : s.freePages b = 0
  · rw [if_neg (fun e => e empty)]
    exact first.trans (.of_mem rfl)
  · rw [if_pos empty]
    exact first.trans ((set_frame apart _ .prev (hh empty) _).trans
      ((set_frame apart _ .next ht _).trans (.of_mem rfl)))

theorem meltLeft_frame {tag : Nat} (ht : tag ∈ T) (hl : s.get .splitLeft tag ∈ T)
    (hr : TagOrNull T (s.get .splitRight tag)) : Frame T s (s.meltLeft tag).1 := by
  have lowR := get_lt s .splitRight tag
  have sum := wrap_lt (s.get .realSize (s.get .splitLeft tag) + s.get .realSize tag)
  unfold Heap.meltLeft
  dsimp only
  refine (set_frame apart s .realSize hl _).trans ((set_frame apart _ .splitRight hl _).trans
    (setUnlessNull_frame apart _ .splitLeft ?_ _))
  simp only [get_set apart, ht, hl, sum, lowR, reduceCtorEq, and_true, and_false, if_false, ite_self]
  exact hr

theorem absorbRight_frame {tag r : Nat} (ht : tag ∈ T) (right : s.get .splitRight tag = r) (hr : r ∈ T)
    (other : r ≠ tag) (hrr : TagOrNull T (s.get .splitRight r)) (hp : TagOrNull T (s.get .prev r))
    (hn : TagOrNull T (s.get .next r)) (null : 0 ∉ T) : Frame T s (s.absorbRight tag) := by
  have removed := fun v (hv : v ∈ T) => removeTag_get apart null s hr hv hp hn
  have sum := wrap_lt (s.get .realSize tag + s.get .realSize r)
  have lowR := get_lt s .splitRight r
  unfold Heap.absorbRight
  dsimp only
  rw [right]
  refine (removeTag_frame apart s hr hp hn null).trans ((set_frame apart _ .realSize ht _).trans
    ((set_frame apart _ .splitRight ht _).trans (setUnlessNull_frame apart _ .splitLeft ?_ _)))
  simp only [get_set apart, removed, ht, hr, other, sum, lowR, reduceCtorEq, and_true, and_false,
    if_false]
  exact hrr

theorem cutTag_frame {tag n : Nat} (ht : tag ∈ T) (new : s.newTag tag = n) (hn : n ∈ T)
    (other : tag ≠ n) (hr : TagOrNull T (s.get .splitRight tag)) : Frame T s (s.cutTag tag) := by
  have magic : liballocMagic < 2 ^ 32 := by decide
  have zero : (0 : Nat) < 2 ^ 32 := by decide
  have lowR := get_lt s .splitRight tag
  have lowTag : tag < 2 ^ 32 := by
    have := apart.1 tag ht
    omega
  have rest := wrap_lt (2 ^ 32 - s.get .size tag + wsub (s.get .realSize tag) sizeofTag)
  unfold Heap.cutTag
  dsimp only
  rw [new]
  refine (set_frame apart s .magic hn _).trans ((set_frame apart _ .realSize hn _).trans
    ((set_frame apart _ .next hn _).trans ((set_frame apart _ .prev hn _).trans
      ((set_frame apart _ .splitLeft hn _).trans ((set_frame apart _ .splitRight hn _).trans
        ((setUnlessNull_frame apart _ .splitLeft ?_ _).trans
          ((set_frame apart _ .splitRight ht _).trans (set_frame apart _ .realSize ht _))))))))
  unfold wsub at *
  simp only [get_set apart, ht, hn, other, magic, zero, lowTag, lowR, rest, reduceCtorEq, and_true,
    and_false, if_true, if_false]
  exact hr

theorem writeTag_frame {tag : Nat} (ht : tag ∈ T) (size realSize : Nat) :
    Frame T s (s.writeTag tag size realSize) := by
  unfold Heap.writeTag
  dsimp only
  exact (set_frame apart s .magic ht _).trans ((set_frame apart _ .size ht _).trans
    ((set_frame apart _ .realSize ht _).trans ((set_frame apart _ .index ht _).trans
      ((set_frame apart _ .next ht _).trans ((set_frame apart _ .prev ht _).trans
        ((set_frame apart _ .splitLeft ht _).trans (set_frame apart _ .splitRight ht _)))))))

end Operations

section Blocks

variable {s : Heap} {T F : Finset Nat} {hand : Nat} (h : Blocks s T F hand)
include h

theorem Blocks.removeTag_frame {x : Nat} (hx : x ∈ F) : Frame T s (s.removeTag x) :=
  RiseOS.removeTag_frame h.apart s (h.free_sub hx) (h.prev_tag hx) (h.next_tag hx) h.null

theorem Blocks.absorbRight_frame {tag r : Nat} (ht : tag ∈ T) (right : s.get .splitRight tag = r)
    (hr : r ∈ F) : Frame T s (s.absorbRight tag) := by
  have memR := h.free_sub hr
  have apart := (h.right_behind ht (right ▸ h.tiled.known memR)).2
  rw [right] at apart
  exact RiseOS.absorbRight_frame h.apart s ht right memR apart (h.right_tag memR) (h.prev_tag hr)
    (h.next_tag hr) h.null

theorem Blocks.melt_frame {tag : Nat} (ht : tag ∈ T) (free : tag ∉ F)
    (more : s.get .splitLeft tag ≠ 0) (hl : s.get .splitLeft tag ∈ F) :
    Frame T s ((s.meltLeft tag).1.removeTag (s.get .splitLeft tag)) := by
  have melted := h.meltLeft ht free more
  exact (meltLeft_frame h.apart s ht (h.free_sub hl) (h.right_tag ht)).trans
    ((melted.removeTag_frame hl).mono (Finset.erase_subset tag T))

end Blocks

theorem Blocks.splitTag_frame {s : Heap} {T F : Finset Nat} {tag n : Nat} (h : Blocks s T F 0)
    (ht : tag ∈ T) (room : s.get .size tag + 64 ≤ s.get .realSize tag)
    (hn : n = tag + (32 + s.get .size tag)) : Frame (insert n T) s (s.splitTag tag) := by
  have fresh := h.newTag_fresh ht room hn
  have cut := h.cutTag ht room hn
  have self : n ∈ insert n T := Finset.mem_insert_self n T
  have valid := bucket_valid (wsub ((s.cutTag tag).get .realSize n) sizeofTag)
  have rightOr : TagOrNull (insert n T) (s.get .splitRight tag) := fun more =>
    Finset.mem_insert_of_mem (h.right_tag ht more)
  unfold Heap.splitTag
  rw [h.newTag_eq ht room hn]
  exact (cutTag_frame (h.newTag_apart ht room hn) s (Finset.mem_insert_of_mem ht)
    (h.newTag_eq ht room hn) self (fun e => fresh (e ▸ ht)) rightOr).trans
    (insertTag_frame cut.apart (s.cutTag tag) self (realIndex_neg _ n) (cut.head_tag valid))

end RiseOS
