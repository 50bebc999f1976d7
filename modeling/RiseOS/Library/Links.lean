import Mathlib.Data.Finset.Card
import Mathlib.Logic.Function.Iterate

/-! Doubly linked lists, one for each bucket, as pointers see them: two link
functions on a finite set of nodes, with a null that is no node. Every condition
is about a node and its neighbours, so an edit is checked where it happens. -/
namespace Links

variable {N B : Type}

structure Linked (null : N) (valid : Set B) (head : B → N) (bucket : N → B) (next prev : N → N)
    (F : Finset N) : Prop where
  nonnull : null ∉ F
  bucket_valid : ∀ x ∈ F, bucket x ∈ valid
  head_mem : ∀ b ∈ valid, head b ≠ null →
    head b ∈ F ∧ bucket (head b) = b ∧ prev (head b) = null
  next_mem : ∀ x ∈ F, next x ≠ null →
    next x ∈ F ∧ bucket (next x) = bucket x ∧ prev (next x) = x
  prev_mem : ∀ x ∈ F, prev x ≠ null →
    prev x ∈ F ∧ bucket (prev x) = bucket x ∧ next (prev x) = x
  first : ∀ x ∈ F, prev x = null → head (bucket x) = x

variable {null : N} {valid : Set B} {head head' : B → N} {bucket bucket' : N → B}
  {next prev next' prev' : N → N} {F : Finset N}

theorem linked_empty (clear : ∀ b ∈ valid, head b = null) :
    Linked null valid head bucket next prev ∅ := by
  refine ⟨by simp, by simp, ?_, by simp, by simp, by simp⟩
  intro b inside nonempty
  exact absurd (clear b inside) nonempty

theorem Linked.congr (h : Linked null valid head bucket next prev F)
    (heads : ∀ b ∈ valid, head' b = head b) (buckets : ∀ x ∈ F, bucket' x = bucket x)
    (nexts : ∀ x ∈ F, next' x = next x) (prevs : ∀ x ∈ F, prev' x = prev x) :
    Linked null valid head' bucket' next' prev' F := by
  refine ⟨h.nonnull, ?_, ?_, ?_, ?_, ?_⟩
  · intro x hx
    rw [buckets x hx]
    exact h.bucket_valid x hx
  · intro b hb nonempty
    rw [heads b hb] at nonempty ⊢
    obtain ⟨mem, same, start⟩ := h.head_mem b hb nonempty
    rw [buckets _ mem, prevs _ mem]
    exact ⟨mem, same, start⟩
  · intro x hx more
    rw [nexts x hx] at more ⊢
    obtain ⟨mem, same, back⟩ := h.next_mem x hx more
    rw [buckets _ mem, buckets x hx, prevs _ mem]
    exact ⟨mem, same, back⟩
  · intro x hx more
    rw [prevs x hx] at more ⊢
    obtain ⟨mem, same, forth⟩ := h.prev_mem x hx more
    rw [buckets _ mem, buckets x hx, nexts _ mem]
    exact ⟨mem, same, forth⟩
  · intro x hx start
    rw [prevs x hx] at start
    rw [buckets x hx, heads _ (h.bucket_valid x hx)]
    exact h.first x hx start

section Walk

variable (h : Linked null valid head bucket next prev F) {b : B} (inside : b ∈ valid)
include h inside

theorem Linked.walk_mem (n : Nat) (more : ∀ i, i ≤ n → next^[i] (head b) ≠ null) :
    next^[n] (head b) ∈ F ∧ bucket (next^[n] (head b)) = b := by
  induction n with
  | zero =>
    obtain ⟨mem, same, _⟩ := h.head_mem b inside (more 0 (Nat.le_refl 0))
    exact ⟨mem, same⟩
  | succ n ih =>
    obtain ⟨mem, same⟩ := ih (fun i hi => more i (Nat.le_succ_of_le hi))
    have step := more (n + 1) (Nat.le_refl _)
    rw [Function.iterate_succ_apply'] at step ⊢
    obtain ⟨memN, sameN, _⟩ := h.next_mem _ mem step
    exact ⟨memN, sameN.trans same⟩

/-- A walk from a head comes past no node twice: going back from the second
time one would go back from the head. -/
theorem Linked.walk_fresh (i k : Nat) (more : ∀ m, m ≤ i + k + 1 → next^[m] (head b) ≠ null) :
    next^[i] (head b) ≠ next^[i + k + 1] (head b) := by
  induction i with
  | zero =>
    intro same
    rw [Nat.zero_add] at same more
    have mem := (h.walk_mem inside k (fun m hm => more m (Nat.le_succ_of_le hm))).1
    have start := (h.head_mem b inside (more 0 (Nat.zero_le _))).2.2
    have step := more (k + 1) (Nat.le_refl _)
    rw [Function.iterate_succ_apply'] at same step
    have back := (h.next_mem _ mem step).2.2
    rw [← same] at back
    exact h.nonnull (start.symm.trans back ▸ mem)
  | succ i ih =>
    intro same
    have near := more (i + 1) (by omega)
    have far := more (i + k + 1 + 1) (by omega)
    have memI := (h.walk_mem inside i (fun m hm => more m (by omega))).1
    have memK := (h.walk_mem inside (i + k + 1) (fun m hm => more m (by omega))).1
    have shift : i + 1 + k + 1 = i + k + 1 + 1 := by omega
    rw [shift, Function.iterate_succ_apply', Function.iterate_succ_apply'] at same
    rw [Function.iterate_succ_apply'] at near far
    have backI := (h.next_mem _ memI near).2.2
    have backK := (h.next_mem _ memK far).2.2
    exact ih (fun m hm => more m (by omega)) (by rw [← backI, same, backK])

theorem Linked.walk_ends : ∃ n, n ≤ F.card ∧ next^[n] (head b) = null := by
  by_contra endless
  have more : ∀ i, i ≤ F.card → next^[i] (head b) ≠ null := fun i hi last => endless ⟨i, hi, last⟩
  have apart : Set.InjOn (fun i => next^[i] (head b)) (Finset.range (F.card + 1)) := by
    intro i hi j hj same
    rw [Finset.coe_range, Set.mem_Iio] at hi hj
    by_contra other
    rcases Nat.lt_or_gt_of_ne other with less | less
    · obtain ⟨k, rfl⟩ := Nat.exists_eq_add_of_lt less
      exact h.walk_fresh inside i k (fun m hm => more m (by omega)) same
    · obtain ⟨k, rfl⟩ := Nat.exists_eq_add_of_lt less
      exact h.walk_fresh inside j k (fun m hm => more m (by omega)) same.symm
  have into : Set.MapsTo (fun i => next^[i] (head b)) (Finset.range (F.card + 1)) F := by
    intro i hi
    rw [Finset.coe_range, Set.mem_Iio] at hi
    exact (h.walk_mem inside i (fun m hm => more m (by omega))).1
  have count := Finset.card_le_card_of_injOn _ into apart
  rw [Finset.card_range] at count
  omega

end Walk

/-! ### Neighbours -/

theorem Linked.known (h : Linked null valid head bucket next prev F) {x : N} (hx : x ∈ F) : x ≠ null :=
  fun same => h.nonnull (same ▸ hx)

theorem Linked.next_inj (h : Linked null valid head bucket next prev F) {x y : N} (hx : x ∈ F)
    (hy : y ∈ F) (more : next x ≠ null) (same : next x = next y) : x = y := by
  have backX := (h.next_mem x hx more).2.2
  have backY := (h.next_mem y hy (same ▸ more)).2.2
  rw [← backX, same, backY]

theorem Linked.prev_inj (h : Linked null valid head bucket next prev F) {x y : N} (hx : x ∈ F)
    (hy : y ∈ F) (more : prev x ≠ null) (same : prev x = prev y) : x = y := by
  have forthX := (h.prev_mem x hx more).2.2
  have forthY := (h.prev_mem y hy (same ▸ more)).2.2
  rw [← forthX, same, forthY]

/-- A head has nothing before it. -/
theorem Linked.head_ne_next (h : Linked null valid head bucket next prev F) {b : B} (hb : b ∈ valid)
    {x : N} (hx : x ∈ F) (nonempty : head b ≠ null) : head b ≠ next x := by
  intro here
  have start := (h.head_mem b hb nonempty).2.2
  have back := (h.next_mem x hx (here ▸ nonempty)).2.2
  rw [← here, start] at back
  exact h.known hx back.symm

/-- A node that follows itself comes before itself. -/
theorem Linked.next_loop (h : Linked null valid head bucket next prev F) {x : N} (hx : x ∈ F)
    (same : next x = x) : prev x = x := by
  have back := (h.next_mem x hx (same.symm ▸ h.known hx)).2.2
  rwa [same] at back

variable [DecidableEq N] [DecidableEq B]

/-! ### A node leaves its list -/

section Unlink

variable (h : Linked null valid head bucket next prev F) {x : N} (listed : x ∈ F)
  (heads : ∀ b ∈ valid, head' b = if b = bucket x ∧ head (bucket x) = x then next x else head b)
  (buckets : ∀ y ∈ F, y ≠ x → bucket' y = bucket y)
  (nexts : ∀ y ∈ F, y ≠ x → next' y = if y = prev x then next x else next y)
  (prevs : ∀ y ∈ F, y ≠ x → prev' y = if y = next x then prev x else prev y)
include h listed buckets

include heads prevs in
theorem Linked.unlink_head : ∀ b ∈ valid, head' b ≠ null →
    head' b ∈ F.erase x ∧ bucket' (head' b) = b ∧ prev' (head' b) = null := by
  intro b hb nonempty
  rw [heads b hb] at nonempty ⊢
  by_cases top : b = bucket x ∧ head (bucket x) = x
  · rw [if_pos top] at nonempty ⊢
    obtain ⟨mem, same, back⟩ := h.next_mem x listed nonempty
    have start : prev x = null := by
      have := (h.head_mem _ (h.bucket_valid x listed) (top.2.symm ▸ h.known listed)).2.2
      rwa [top.2] at this
    have other : next x ≠ x := fun self => h.known listed ((h.next_loop listed self).symm.trans start)
    rw [buckets _ mem other, prevs _ mem other, if_pos rfl, top.1]
    exact ⟨Finset.mem_erase.mpr ⟨other, mem⟩, same, start⟩
  · rw [if_neg top] at nonempty ⊢
    obtain ⟨mem, same, start⟩ := h.head_mem b hb nonempty
    have other : head b ≠ x := fun self => top ⟨by rw [← same, self], by rw [← self, same]⟩
    have behind : head b ≠ next x := h.head_ne_next hb listed nonempty
    rw [buckets _ mem other, prevs _ mem other, if_neg behind]
    exact ⟨Finset.mem_erase.mpr ⟨other, mem⟩, same, start⟩

omit [DecidableEq B] in
include nexts prevs in
theorem Linked.unlink_next : ∀ y ∈ F.erase x, next' y ≠ null →
    next' y ∈ F.erase x ∧ bucket' (next' y) = bucket' y ∧ prev' (next' y) = y := by
  intro y hy more
  obtain ⟨other, mem⟩ := Finset.mem_erase.mp hy
  rw [nexts y mem other] at more ⊢
  rw [buckets y mem other]
  by_cases before : y = prev x
  · rw [if_pos before] at more ⊢
    obtain ⟨memN, sameN, backN⟩ := h.next_mem x listed more
    have sameP := (h.prev_mem x listed (before ▸ h.known mem)).2.1
    have otherN : next x ≠ x := fun self => other (before.trans (h.next_loop listed self))
    rw [buckets _ memN otherN, prevs _ memN otherN, if_pos rfl, before, sameP]
    exact ⟨Finset.mem_erase.mpr ⟨otherN, memN⟩, sameN, rfl⟩
  · rw [if_neg before] at more ⊢
    obtain ⟨memN, sameN, backN⟩ := h.next_mem y mem more
    have otherN : next y ≠ x := fun self => before (by rw [← backN, self])
    have apart : next y ≠ next x := fun same => other (h.next_inj mem listed more same)
    rw [buckets _ memN otherN, prevs _ memN otherN, if_neg apart]
    exact ⟨Finset.mem_erase.mpr ⟨otherN, memN⟩, sameN, backN⟩

omit [DecidableEq B] in
include nexts prevs in
theorem Linked.unlink_prev : ∀ y ∈ F.erase x, prev' y ≠ null →
    prev' y ∈ F.erase x ∧ bucket' (prev' y) = bucket' y ∧ next' (prev' y) = y := by
  intro y hy more
  obtain ⟨other, mem⟩ := Finset.mem_erase.mp hy
  rw [prevs y mem other] at more ⊢
  rw [buckets y mem other]
  by_cases behind : y = next x
  · rw [if_pos behind] at more ⊢
    obtain ⟨memP, sameP, forthP⟩ := h.prev_mem x listed more
    have sameN := (h.next_mem x listed (behind ▸ h.known mem)).2.1
    have otherP : prev x ≠ x := by
      intro self
      rw [self] at forthP
      exact other (behind.trans forthP)
    rw [buckets _ memP otherP, nexts _ memP otherP, if_pos rfl, behind, sameN]
    exact ⟨Finset.mem_erase.mpr ⟨otherP, memP⟩, sameP, rfl⟩
  · rw [if_neg behind] at more ⊢
    obtain ⟨memP, sameP, forthP⟩ := h.prev_mem y mem more
    have otherP : prev y ≠ x := fun self => behind (by rw [← forthP, self])
    have apart : prev y ≠ prev x := fun same => other (h.prev_inj mem listed more same)
    rw [buckets _ memP otherP, nexts _ memP otherP, if_neg apart]
    exact ⟨Finset.mem_erase.mpr ⟨otherP, memP⟩, sameP, forthP⟩

include heads prevs in
theorem Linked.unlink_first : ∀ y ∈ F.erase x, prev' y = null → head' (bucket' y) = y := by
  intro y hy start
  obtain ⟨other, mem⟩ := Finset.mem_erase.mp hy
  rw [prevs y mem other] at start
  rw [buckets y mem other, heads _ (h.bucket_valid y mem)]
  by_cases behind : y = next x
  · rw [if_pos behind] at start
    have same := (h.next_mem x listed (behind ▸ h.known mem)).2.1
    have top := h.first x listed start
    rw [if_pos ⟨by rw [behind, same], top⟩]
    exact behind.symm
  · rw [if_neg behind] at start
    have top := h.first y mem start
    rw [if_neg, top]
    rintro ⟨same, topX⟩
    rw [same, topX] at top
    exact other top.symm

include heads nexts prevs in
theorem Linked.unlink : Linked null valid head' bucket' next' prev' (F.erase x) := by
  refine ⟨?_, ?_, h.unlink_head listed heads buckets prevs, h.unlink_next listed buckets nexts prevs,
    h.unlink_prev listed buckets nexts prevs, h.unlink_first listed heads buckets prevs⟩
  · exact fun mem => h.nonnull (Finset.mem_of_mem_erase mem)
  · intro y hy
    obtain ⟨other, mem⟩ := Finset.mem_erase.mp hy
    rw [buckets y mem other]
    exact h.bucket_valid y mem

end Unlink

/-! ### A node becomes the head of a list -/

section Push

variable (h : Linked null valid head bucket next prev F) {x : N} {b : B} (inside : b ∈ valid)
  (node : x ≠ null) (heads : ∀ c ∈ valid, head' c = if c = b then x else head c)
  (own : bucket' x = b ∧ next' x = head b ∧ prev' x = null)
  (buckets : ∀ y ∈ F, bucket' y = bucket y) (nexts : ∀ y ∈ F, next' y = next y)
  (prevs : ∀ y ∈ F, prev' y = if y = head b then x else prev y)
include h inside own buckets

include heads prevs in
theorem Linked.push_head : ∀ c ∈ valid, head' c ≠ null →
    head' c ∈ insert x F ∧ bucket' (head' c) = c ∧ prev' (head' c) = null := by
  obtain ⟨ownB, _, ownP⟩ := own
  intro c hc nonempty
  rw [heads c hc] at nonempty ⊢
  by_cases here : c = b
  · rw [if_pos here, ownB, ownP, here]
    exact ⟨Finset.mem_insert_self x F, rfl, rfl⟩
  · rw [if_neg here] at nonempty ⊢
    obtain ⟨mem, same, start⟩ := h.head_mem c hc nonempty
    have behind : head c ≠ head b := by
      intro equal
      have sameB := (h.head_mem b inside (equal ▸ nonempty)).2.1
      exact here (by rw [← same, equal, sameB])
    rw [buckets _ mem, prevs _ mem, if_neg behind]
    exact ⟨Finset.mem_insert_of_mem mem, same, start⟩

omit [DecidableEq B] in
include nexts prevs in
theorem Linked.push_next : ∀ y ∈ insert x F, next' y ≠ null →
    next' y ∈ insert x F ∧ bucket' (next' y) = bucket' y ∧ prev' (next' y) = y := by
  obtain ⟨ownB, ownN, _⟩ := own
  intro y hy more
  rcases Finset.mem_insert.mp hy with rfl | mem
  · rw [ownN] at more ⊢
    obtain ⟨memH, sameH, _⟩ := h.head_mem b inside more
    rw [buckets _ memH, prevs _ memH, if_pos rfl, ownB]
    exact ⟨Finset.mem_insert_of_mem memH, sameH, rfl⟩
  · rw [nexts y mem] at more ⊢
    obtain ⟨memN, sameN, backN⟩ := h.next_mem y mem more
    have behind : next y ≠ head b := fun equal =>
      h.head_ne_next inside mem (equal ▸ more) equal.symm
    rw [buckets _ memN, buckets y mem, prevs _ memN, if_neg behind]
    exact ⟨Finset.mem_insert_of_mem memN, sameN, backN⟩

omit [DecidableEq B] in
include nexts prevs in
theorem Linked.push_prev : ∀ y ∈ insert x F, prev' y ≠ null →
    prev' y ∈ insert x F ∧ bucket' (prev' y) = bucket' y ∧ next' (prev' y) = y := by
  obtain ⟨ownB, ownN, ownP⟩ := own
  intro y hy more
  rcases Finset.mem_insert.mp hy with rfl | mem
  · exact absurd ownP more
  · rw [prevs y mem] at more ⊢
    by_cases top : y = head b
    · have sameH := (h.head_mem b inside (top ▸ h.known mem)).2.1
      rw [if_pos top, ownB, ownN, buckets y mem, top]
      exact ⟨Finset.mem_insert_self x F, sameH.symm, rfl⟩
    · rw [if_neg top] at more ⊢
      obtain ⟨memP, sameP, forthP⟩ := h.prev_mem y mem more
      rw [buckets _ memP, buckets y mem, nexts _ memP]
      exact ⟨Finset.mem_insert_of_mem memP, sameP, forthP⟩

include node heads prevs in
theorem Linked.push_first : ∀ y ∈ insert x F, prev' y = null → head' (bucket' y) = y := by
  intro y hy start
  rcases Finset.mem_insert.mp hy with rfl | mem
  · rw [own.1, heads b inside, if_pos rfl]
  · rw [prevs y mem] at start
    rw [buckets y mem, heads _ (h.bucket_valid y mem)]
    by_cases top : y = head b
    · rw [if_pos top] at start
      exact absurd start node
    · rw [if_neg top] at start
      have first := h.first y mem start
      rw [if_neg, first]
      intro same
      exact top (by rw [← same, first])

include node heads nexts prevs in
theorem Linked.push : Linked null valid head' bucket' next' prev' (insert x F) := by
  refine ⟨?_, ?_, h.push_head inside heads own buckets prevs,
    h.push_next inside own buckets nexts prevs, h.push_prev inside own buckets nexts prevs,
    h.push_first inside node heads own buckets prevs⟩
  · rw [Finset.mem_insert, not_or]
    exact ⟨node.symm, h.nonnull⟩
  · intro y hy
    rcases Finset.mem_insert.mp hy with rfl | mem
    · rw [own.1]
      exact inside
    · rw [buckets y mem]
      exact h.bucket_valid y mem

end Push

/-! ### Lists without cycles -/

/-- The nodes have ranks that go down along `prev`, so that going back ends. -/
def Acyclic (null : N) (prev : N → N) (F : Finset N) : Prop :=
  ∃ rank : N → Nat, ∀ x ∈ F, prev x ≠ null → rank (prev x) < rank x

omit [DecidableEq N] [DecidableEq B] in
theorem Acyclic.congr (a : Acyclic null prev F) (prevs : ∀ x ∈ F, prev' x = prev x) :
    Acyclic null prev' F := by
  obtain ⟨rank, down⟩ := a
  refine ⟨rank, fun x hx => ?_⟩
  rw [prevs x hx]
  exact down x hx

omit [DecidableEq B] in
theorem Acyclic.unlink (a : Acyclic null prev F) (h : Linked null valid head bucket next prev F)
    {x : N} (listed : x ∈ F)
    (prevs : ∀ y ∈ F, y ≠ x → prev' y = if y = next x then prev x else prev y) :
    Acyclic null prev' (F.erase x) := by
  obtain ⟨rank, down⟩ := a
  refine ⟨rank, fun y hy more => ?_⟩
  obtain ⟨other, mem⟩ := Finset.mem_erase.mp hy
  rw [prevs y mem other] at more ⊢
  by_cases behind : y = next x
  · rw [if_pos behind] at more ⊢
    have back := (h.next_mem x listed (behind ▸ h.known mem)).2.2
    rw [← behind] at back
    have below := down y mem (back.symm ▸ h.known listed)
    rw [back] at below
    exact (down x listed more).trans below
  · rw [if_neg behind] at more ⊢
    exact down y mem more

omit [DecidableEq B] in
theorem Acyclic.push (a : Acyclic null prev F) {x first : N} (fresh : x ∉ F) (own : prev' x = null)
    (prevs : ∀ y ∈ F, prev' y = if y = first then x else prev y) :
    Acyclic null prev' (insert x F) := by
  obtain ⟨rank, down⟩ := a
  refine ⟨fun y => if y = x then 0 else rank y + 1, fun y hy more => ?_⟩
  rcases Finset.mem_insert.mp hy with rfl | mem
  · exact absurd own more
  have other : y ≠ x := fun e => fresh (e ▸ mem)
  rw [prevs y mem] at more ⊢
  dsimp only
  rw [if_neg other]
  split
  · rw [if_pos rfl]
    exact Nat.succ_pos _
  · rename_i inner
    rw [if_neg inner] at more
    split
    · exact Nat.succ_pos _
    · exact Nat.succ_lt_succ (down y mem more)

omit [DecidableEq N] [DecidableEq B] in
/-- A walk from the head of its list comes to every node. -/
theorem Linked.reached (h : Linked null valid head bucket next prev F) (a : Acyclic null prev F)
    {x : N} (listed : x ∈ F) : ∃ n, next^[n] (head (bucket x)) = x ∧
      ∀ i, i ≤ n → next^[i] (head (bucket x)) ≠ null := by
  obtain ⟨rank, down⟩ := a
  induction hr : rank x using Nat.strongRecOn generalizing x with
  | ind r ih =>
    subst hr
    by_cases start : prev x = null
    · refine ⟨0, h.first x listed start, fun i hi => ?_⟩
      obtain rfl := Nat.le_zero.mp hi
      rw [Function.iterate_zero_apply, h.first x listed start]
      exact h.known listed
    · obtain ⟨mem, same, forth⟩ := h.prev_mem x listed start
      obtain ⟨n, here, more⟩ := ih _ (down x listed start) mem rfl
      rw [same] at here more
      have last : next^[n + 1] (head (bucket x)) = x := by
        rw [Function.iterate_succ_apply', here, forth]
      refine ⟨n + 1, last, fun i hi => ?_⟩
      rcases Nat.lt_or_eq_of_le hi with less | rfl
      · exact more i (Nat.le_of_lt_succ less)
      · rw [last]
        exact h.known listed

end Links
