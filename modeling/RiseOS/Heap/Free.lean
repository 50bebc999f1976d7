import RiseOS.Heap.Malloc

/-! free: melting with the neighbours, and the chunk that is given back. -/
namespace RiseOS
open Words Links Tiling

/-- The block in hand has grown, and holds what it held before. -/
def Covers (s : Heap) (tag : Nat) (s' : Heap) (tag' : Nat) : Prop :=
  tag' ≤ tag ∧ tag + s.get .realSize tag ≤ tag' + s'.get .realSize tag'

theorem Covers.trans {s s' s'' : Heap} {tag tag' tag'' : Nat} (h : Covers s tag s' tag')
    (k : Covers s' tag' s'' tag'') : Covers s tag s'' tag'' :=
  ⟨k.1.trans h.1, h.2.trans k.2⟩

section Melting

variable {s : Heap} {T F : Finset Nat} {tag : Nat} (h : Blocks s T F 0) (ht : tag ∈ T)
  (free : tag ∉ F)
include h ht

theorem Blocks.left_free (more : s.get .splitLeft tag ≠ 0 ∧ s.index (s.get .splitLeft tag) ≥ 0) :
    s.get .splitLeft tag ∈ F := by
  have mem := (h.tiled.left_mem tag ht more.1).1
  exact (h.free_iff _ mem more.1).mp more.2

theorem Blocks.right_free (more : s.get .splitRight tag ≠ 0 ∧ s.index (s.get .splitRight tag) ≥ 0) :
    s.get .splitRight tag ∈ F := by
  have mem := (h.tiled.right_mem tag ht more.1).1
  exact (h.free_iff _ mem more.1).mp more.2

theorem absorbRight_spares (more : s.get .splitRight tag ≠ 0 ∧
    s.index (s.get .splitRight tag) ≥ 0) :
    Spares s T F tag (s.absorbRight tag) (T.erase (s.get .splitRight tag))
      (F.erase (s.get .splitRight tag)) tag := by
  have hr := h.right_free ht more
  have memR := h.free_sub hr
  have apart := (h.right_behind ht more.1).2
  have get := fun u hu => absorbRight_get h.apart h.null s ht hu rfl memR apart
    (h.right_tag memR) (h.prev_tag hr) (h.next_tag hr) (u := u)
  have removed := fun u hu => removeTag_get h.apart h.null s memR hu (h.prev_tag hr)
    (h.next_tag hr) (u := u)
  intro t mem loose other
  have notRight : t ≠ s.get .splitRight tag := fun e => loose (e ▸ hr)
  refine ⟨Finset.mem_erase.mpr ⟨notRight, mem⟩, fun e => loose (Finset.mem_of_mem_erase e), other,
    (get t mem .size).trans (removed t mem .size), (get t mem .realSize).trans ?_⟩
  exact if_neg other

theorem absorbRight_covers (more : s.get .splitRight tag ≠ 0 ∧
    s.index (s.get .splitRight tag) ≥ 0) : Covers s tag (s.absorbRight tag) tag := by
  have hr := h.right_free ht more
  have memR := h.free_sub hr
  obtain ⟨at_end, apart⟩ := h.right_behind ht more.1
  have real := absorbRight_get h.apart h.null s ht ht rfl memR apart (h.right_tag memR)
    (h.prev_tag hr) (h.next_tag hr) .realSize
  dsimp only at real
  rw [if_pos rfl, h.sum memR at_end] at real
  exact ⟨Nat.le_refl tag, by omega⟩

include free

theorem meltLeft_spares (more : s.get .splitLeft tag ≠ 0 ∧ s.index (s.get .splitLeft tag) ≥ 0) :
    Spares s T F tag ((s.meltLeft tag).1.removeTag (s.get .splitLeft tag)) (T.erase tag)
      (F.erase (s.get .splitLeft tag)) (s.get .splitLeft tag) := by
  have hl := h.left_free ht more
  have memL := h.free_sub hl
  have get := fun u hu => meltLeft_get h.apart h.null s ht hu memL (h.right_tag ht) (u := u)
  have melted : Spares s T F tag (s.meltLeft tag).1 (T.erase tag) F (s.get .splitLeft tag) := by
    intro t mem loose other
    have notLeft : t ≠ s.get .splitLeft tag := fun e => loose (e ▸ hl)
    exact ⟨Finset.mem_erase.mpr ⟨other, mem⟩, loose, notLeft, get t mem .size,
      (get t mem .realSize).trans (if_neg notLeft)⟩
  exact melted.trans (removeTag_spares (h.meltLeft ht free more.1) hl)

theorem meltLeft_covers (more : s.get .splitLeft tag ≠ 0 ∧ s.index (s.get .splitLeft tag) ≥ 0) :
    Covers s tag ((s.meltLeft tag).1.removeTag (s.get .splitLeft tag)) (s.get .splitLeft tag) := by
  have hl := h.left_free ht more
  have memL := h.free_sub hl
  have melted := h.meltLeft ht free more.1
  have mem := melted.free_sub hl
  have left := removeTag_get melted.apart melted.null _ mem mem (melted.prev_tag hl)
    (melted.next_tag hl) .realSize
  have real := meltLeft_get h.apart h.null s ht memL memL (h.right_tag ht) .realSize
  have forth := (h.tiled.left_mem tag ht more.1).2
  obtain ⟨_, at_end, _⟩ := h.tiled.right_mem _ memL (forth.symm ▸ fun e => h.null (e ▸ ht))
  rw [forth] at at_end
  dsimp only at left real
  rw [if_pos rfl, h.sum ht at_end] at real
  unfold Covers
  rw [left, real]
  omega

end Melting

/-- MELT LEFT ends, for it uses up a tag in each round. -/
theorem Blocks.meltLoop {s : Heap} {T F : Finset Nat} {tag : Nat} (h : Blocks s T F 0)
    (ht : tag ∈ T) (free : tag ∉ F) {fuel : Nat} (enough : T.card < fuel) :
    ∃ s' tag' T' F', s.meltLoop fuel tag = some (s', tag') ∧ tag' ∈ T' ∧ tag' ∉ F' ∧
      Blocks s' T' F' 0 ∧ SameGlobals s s' ∧ Spares s T F tag s' T' F' tag' ∧
      Covers s tag s' tag' := by
  induction fuel generalizing s T F tag with
  | zero => exact absurd enough (Nat.not_lt_zero _)
  | succ fuel ih =>
    by_cases more : s.get .splitLeft tag ≠ 0 ∧ s.index (s.get .splitLeft tag) ≥ 0
    · have hl := h.left_free ht more
      have spares := meltLeft_spares h ht free more
      have apart : s.get .splitLeft tag ≠ tag := fun e => free (e ▸ hl)
      have melted := h.meltLeft ht free more.1
      have out := melted.removeTag hl
      have globals := (meltLeft_rest s tag).1.trans (removeTag_globals _ (s.get .splitLeft tag))
      have fewer := Finset.card_erase_lt_of_mem ht
      obtain ⟨s', tag', T', F', result, mem, loose, blocks, same, rest, larger⟩ := ih out
        (Finset.mem_erase.mpr ⟨apart, h.free_sub hl⟩) (Finset.notMem_erase _ F) (by omega)
      refine ⟨s', tag', T', F', ?_, mem, loose, blocks, globals.trans same, spares.trans rest,
        (meltLeft_covers h ht free more).trans larger⟩
      rw [Heap.meltLoop, if_pos more]
      exact result
    · refine ⟨s, tag, T, F, ?_, ht, free, h, ⟨rfl, rfl, rfl, rfl⟩, Spares.refl s T F tag,
        Nat.le_refl _, Nat.le_refl _⟩
      rw [Heap.meltLoop, if_neg more]

theorem Blocks.absorbLoop {s : Heap} {T F : Finset Nat} {tag : Nat} (h : Blocks s T F 0)
    (ht : tag ∈ T) (free : tag ∉ F) {fuel : Nat} (enough : T.card < fuel) :
    ∃ s' T' F', s.absorbLoop fuel tag = some s' ∧ tag ∈ T' ∧ tag ∉ F' ∧
      Blocks s' T' F' 0 ∧ SameGlobals s s' ∧ Spares s T F tag s' T' F' tag ∧
      Covers s tag s' tag := by
  induction fuel generalizing s T F with
  | zero => exact absurd enough (Nat.not_lt_zero _)
  | succ fuel ih =>
    by_cases more : s.get .splitRight tag ≠ 0 ∧ s.index (s.get .splitRight tag) ≥ 0
    · have hr := h.right_free ht more
      have spares := absorbRight_spares h ht more
      have apart : tag ≠ s.get .splitRight tag := fun e => free (by rw [e]; exact hr)
      have absorbed := h.absorbRight ht rfl hr
      have globals := (absorbRight_rest s tag).1
      have fewer := Finset.card_erase_lt_of_mem (h.free_sub hr)
      obtain ⟨s', T', F', result, mem, loose, blocks, same, rest, larger⟩ := ih absorbed
        (Finset.mem_erase.mpr ⟨apart, ht⟩) (fun e => free (Finset.mem_of_mem_erase e)) (by omega)
      refine ⟨s', T', F', ?_, mem, loose, blocks, globals.trans same, spares.trans rest,
        (absorbRight_covers h ht more).trans larger⟩
      rw [Heap.absorbLoop, if_pos more]
      exact result
    · refine ⟨s, T, F, ?_, ht, free, h, ⟨rfl, rfl, rfl, rfl⟩, Spares.refl s T F tag,
        Nat.le_refl _, Nat.le_refl _⟩
      rw [Heap.absorbLoop, if_neg more]

/-- free hands the chunk at `base` back: it holds the block in hand and no other
block in use, and there are enough such chunks in their list. -/
structure GivesBack (s : Heap) (T F : Finset Nat) (tag base pages : Nat) : Prop where
  chunk : (base, 4096 * pages) ∈ chunkSet s.vmm.calls
  few : pages ≤ 1025
  header : base ≤ tag ∧ tag < base + 4096 * pages
  alone : ∀ t ∈ T, t ∉ F → t ≠ tag → t < base ∨ base + 4096 * pages ≤ t
  full : s.completePages (bucket (wsub (4096 * pages) sizeofTag)) = maxComplete

section PutBack

variable {s : Heap} {T F : Finset Nat} {tag : Nat} (h : Blocks s T F 0) (ht : tag ∈ T)
  (free : tag ∉ F)
include h ht

theorem Blocks.wholeChunk (whole : s.complete tag)
    (full : s.completePages (bucket (wsub (s.get .realSize tag) sizeofTag)) = maxComplete) :
    ∃ pages, 16 ≤ pages ∧ s.get .realSize tag = 4096 * pages ∧ GivesBack s T F tag tag pages := by
  have chunk := h.tiled.whole ht whole.1 whole.2
  obtain ⟨_, pages, least, few, size⟩ := h.below _ chunk
  dsimp only at size
  rw [size] at chunk full
  refine ⟨pages, least, size, chunk, few, by omega, ?_, full⟩
  intro t mem _ other
  have := h.tiled.apart t mem tag ht other
  have := h.long mem
  omega

include free

theorem Blocks.dropChunk (whole : s.complete tag) {v : Vmm}
    (calls : chunkSet v.calls = { c ∈ chunkSet s.vmm.calls | c.1 ≠ tag })
    (cur : v.heapCur = s.vmm.heapCur) : Blocks { s with vmm := v } (T.erase tag) F 0 := by
  have kept : ∀ c ∈ chunkSet v.calls, c ∈ chunkSet s.vmm.calls := by
    intro c hc
    rw [calls] at hc
    exact hc.1
  have others : ∀ c ∈ chunkSet s.vmm.calls, c.1 ≠ tag → c ∈ chunkSet v.calls := by
    intro c hc other
    rw [calls]
    exact ⟨hc, other⟩
  have sub : ∀ {t}, t ∈ T.erase tag → t ∈ T := Finset.mem_of_mem_erase
  refine ⟨h.tiled.dropChunk sizeofTag_pos ht whole.1 whole.2 kept others, h.linked, ?_, h.hand_loose,
    fun t mem => h.free_iff t (sub mem), fun t mem => h.loose t (sub mem),
    fun t mem => h.magic t (sub mem), ?_, ?_⟩
  · exact fun t mem => Finset.mem_erase.mpr ⟨fun e => free (e ▸ mem), h.free_sub mem⟩
  · intro c hc
    have below := h.below c (kept c hc)
    rw [← cur] at below
    exact below
  · have word := h.word
    rw [← cur] at word
    exact word

theorem Blocks.toList (size : Nat) : Blocks (s.insertTag tag (bucket size)) T (insert tag F) 0 ∧
    Spares s T F tag (s.insertTag tag (bucket size)) T (insert tag F) 0 := by
  have loose := h.weaken free
  have same := realIndex_bucket s tag size
  have clear := (h.loose tag ht free).1
  have get := fun u hu => insertTag_get h.apart h.null s same ht hu
    (h.head_tag (bucket_valid size)) clear (u := u)
  refine ⟨loose.insertTag ht same (bucket_valid size), ?_⟩
  intro t mem notFree other
  refine ⟨mem, ?_, fun e => h.null (e ▸ mem), get t mem .size, get t mem .realSize⟩
  rw [Finset.mem_insert, not_or]
  exact ⟨other, notFree⟩

theorem Blocks.putBack (limits : Limits s.vmm) (started : s.initialized ≠ 0) :
    ∃ s' T' F', s.putBack tag = some s' ∧ Ready s' T' F' ∧ s'.initialized ≠ 0 ∧
      Spares s T F tag s' T' F' 0 ∧ (s'.vmm = s.vmm ∨ ∃ pages r,
        s.get .realSize tag = 4096 * pages ∧ GivesBack s T F tag tag pages ∧
        s.vmm.liballocFree tag pages = some (s'.vmm, r)) := by
  have listed : ∀ m : Heap, Blocks m T F 0 → Spares s T F tag m T F tag → m.vmm = s.vmm →
      m.initialized ≠ 0 → ∀ size, ∃ s' T' F',
        some (m.insertTag tag (bucket size)).liballocUnlock = some s' ∧ Ready s' T' F' ∧
          s'.initialized ≠ 0 ∧ Spares s T F tag s' T' F' 0 ∧ s'.vmm = s.vmm := by
    intro m blocks spares same done size
    obtain ⟨⟨vmm, _, init, _⟩, _⟩ := insertTag_rest m tag (bucket size)
    obtain ⟨inserted, rest⟩ := blocks.toList ht free size
    generalize m.insertTag tag (bucket size) = w at vmm init inserted rest
    have doneW : w.initialized ≠ 0 := by
      rw [init]
      exact done
    have limW : Limits w.vmm := by
      rw [vmm, same]
      exact limits
    exact ⟨w.liballocUnlock, T, insert tag F, rfl, .unlock doneW limW inserted, doneW,
      spares.trans rest, vmm.trans same⟩
  rw [putBack_apart]
  by_cases whole : s.complete tag
  · rw [if_pos whole]
    by_cases full : s.completePages (bucket (wsub (s.get .realSize tag) sizeofTag)) = maxComplete
    · rw [if_pos full]
      obtain ⟨pages, least, size, back⟩ := h.wholeChunk ht whole full
      have inside := (h.below _ back.chunk).1
      dsimp only at inside
      rw [size, neededPages_whole least]
      obtain ⟨v, r, call, limits', cur, _, calls⟩ := liballocFree_drops s.vmm limits back.few inside
      have dropped := h.dropChunk ht free whole calls cur
      rw [call, Option.map_some]
      refine ⟨({ s with vmm := v } : Heap).liballocUnlock, T.erase tag, F, rfl,
        .unlock started limits' dropped, started, ?_, .inr ⟨pages, r, rfl, back, call⟩⟩
      intro t mem notFree other
      exact ⟨Finset.mem_erase.mpr ⟨other, mem⟩, notFree, fun e => h.null (e ▸ mem), rfl, rfl⟩
    · rw [if_neg full]
      obtain ⟨s', T', F', result, ready, done, spares, same⟩ := listed (s.setCompletePages _ _)
        (h.congr (fun _ _ _ _ => rfl) (fun _ _ => rfl) rfl rfl) (Spares.refl s T F tag) rfl started _
      exact ⟨s', T', F', result, ready, done, spares, .inl same⟩
  · rw [if_neg whole]
    obtain ⟨s', T', F', result, ready, done, spares, same⟩ := listed s h (Spares.refl s T F tag) rfl
      started _
    exact ⟨s', T', F', result, ready, done, spares, .inl same⟩

end PutBack

theorem GivesBack.before {s s' : Heap} {T F T' F' : Finset Nat} {tag tag' pages : Nat}
    (back : GivesBack s' T' F' tag' tag' pages) (size : s'.get .realSize tag' = 4096 * pages)
    (vmm : s'.vmm = s.vmm) (counts : s'.completePages = s.completePages)
    (spares : Spares s T F tag s' T' F' tag') (covers : Covers s tag s' tag')
    (long : 32 ≤ s.get .realSize tag) : GivesBack s T F tag tag' pages := by
  obtain ⟨low, high⟩ := covers
  refine ⟨by rw [← vmm]; exact back.chunk, back.few, by omega, ?_, by rw [← counts]; exact back.full⟩
  intro t mem loose other
  obtain ⟨mem', loose', other', _⟩ := spares t mem loose other
  exact back.alone t mem' loose' other'

theorem Ready.melted {s : Heap} {T F : Finset Nat} (h : Ready s T F) (started : s.initialized ≠ 0)
    {tag : Nat} (ht : tag ∈ T) (free : tag ∉ F) :
    ∃ m tag' T' F', ({ s with lock := 1 } : Heap).melted tag = some (m, tag') ∧
      s.free (32 + tag) = m.putBack tag' ∧ tag' ∈ T' ∧ tag' ∉ F' ∧ Blocks m T' F' 0 ∧
      SameGlobals { s with lock := 1 } m ∧ Spares s T F tag m T' F' tag' ∧ Covers s tag m tag' := by
  have blocks : Blocks s T F 0 := by
    have inv := h.blocks
    rwa [initialize_done started] at inv
  have fits := blocks.fits ht
  have back : wsub (32 + tag) sizeofTag = tag := by
    simp only [wsub, wrap, sizeofTag]
    omega
  have inv := blocks.withLock 1
  have start : Spares s T F tag { s with lock := 1 } T F tag := Spares.refl s T F tag
  have covers : Covers s tag { s with lock := 1 } tag := ⟨Nat.le_refl tag, Nat.le_refl _⟩
  have magic : ({ s with lock := 1 } : Heap).get .magic tag = liballocMagic := blocks.magic tag ht
  have opened : s.free (32 + tag) =
      (({ s with lock := 1 } : Heap).melted tag).bind fun r => r.1.putBack r.2 := by
    unfold Heap.free Heap.melted
    rw [if_neg (by omega), h.locked, Option.bind_some]
    dsimp only
    rw [back, if_neg (fun e => e magic), Option.bind_assoc]
    congr 1
    funext r
    rw [Option.map_eq_bind, Option.bind_assoc]
    rfl
  generalize ({ s with lock := 1 } : Heap) = l at inv start covers opened
  obtain ⟨a, tagA, TA, FA, melted, memA, freeA, invA, sameA, sparesA, coversA⟩ :=
    inv.meltLoop ht free inv.card_lt
  obtain ⟨b, TB, FB, absorbed, memB, freeB, invB, sameB, sparesB, coversB⟩ :=
    invA.absorbLoop memA freeA invA.card_lt
  have reached : l.melted tag = some (b, tagA) := by
    unfold Heap.melted
    rw [melted, Option.bind_some, absorbed]
    rfl
  rw [reached, Option.bind_some] at opened
  exact ⟨b, tagA, TB, FB, reached, opened, memB, freeB, invB, sameA.trans sameB,
    start.trans (sparesA.trans sparesB), covers.trans (coversA.trans coversB)⟩

/-- free gives a block in use back and leaves the others as they are. -/
theorem Ready.free {s : Heap} {T F : Finset Nat} (h : Ready s T F) (started : s.initialized ≠ 0)
    {tag : Nat} (ht : tag ∈ T) (free : tag ∉ F) :
    ∃ s' T' F', s.free (32 + tag) = some s' ∧ Ready s' T' F' ∧ s'.initialized ≠ 0 ∧
      Spares s T F tag s' T' F' 0 ∧ (s'.vmm = s.vmm ∨ ∃ base pages r,
        GivesBack s T F tag base pages ∧ s.vmm.liballocFree base pages = some (s'.vmm, r)) := by
  obtain ⟨m, tag', TM, FM, _, opened, memM, freeM, inv, same, spares, covers⟩ :=
    h.melted started ht free
  have long : 32 ≤ s.get .realSize tag := by
    have blocks := h.blocks
    rw [initialize_done started] at blocks
    exact blocks.long ht
  have limits : Limits m.vmm := by
    rw [same.1]
    exact h.limits
  have startedM : m.initialized ≠ 0 := by
    rw [same.2.2.1]
    exact started
  obtain ⟨s', T', F', put, ready, done, rest, returned⟩ := inv.putBack memM freeM limits startedM
  refine ⟨s', T', F', opened.trans put, ready, done, spares.trans rest, ?_⟩
  have vmm : m.vmm = s.vmm := same.1
  rw [vmm] at returned
  refine returned.imp_right ?_
  rintro ⟨pages, r, size, back, call⟩
  exact ⟨tag', pages, r, back.before size vmm same.2.2.2 spares covers long, call⟩

end RiseOS
