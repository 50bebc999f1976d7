import Mathlib.Data.Finset.Basic
import RiseOS.Kernel.Liballoc

/-! Tags whose headers do not overlap, and what each list and split operation
writes into them. -/
namespace RiseOS
open Words

/-- Headers lie below 2^32 and do not overlap. -/
def HeadersApart (T : Finset Nat) : Prop :=
  (∀ t ∈ T, t + 32 ≤ 2 ^ 32) ∧ ∀ t ∈ T, ∀ u ∈ T, t ≠ u → t + 32 ≤ u ∨ u + 32 ≤ t

theorem HeadersApart.insert {T : Finset Nat} (h : HeadersApart T) {n : Nat} (fits : n + 32 ≤ 2 ^ 32)
    (far : ∀ t ∈ T, t + 32 ≤ n ∨ n + 32 ≤ t) : HeadersApart (insert n T) := by
  refine ⟨?_, ?_⟩
  · intro t mem
    rcases Finset.mem_insert.mp mem with rfl | old
    · exact fits
    · exact h.1 t old
  · intro t memT u memU other
    rcases Finset.mem_insert.mp memT with rfl | oldT
    · rcases Finset.mem_insert.mp memU with rfl | oldU
      · exact absurd rfl other
      · exact (far u oldU).symm
    · rcases Finset.mem_insert.mp memU with rfl | oldU
      · exact far t oldT
      · exact h.2 t oldT u oldU other

theorem get_lt (s : Heap) (f : TagField) (t : Nat) : s.get f t < 2 ^ 32 := load32_lt _ _

@[simp] theorem get_setFreePages (s : Heap) (i : Int) (v : Nat) (f : TagField) (t : Nat) :
    (s.setFreePages i v).get f t = s.get f t := rfl

@[simp] theorem vmm_setCompletePages (s : Heap) (i n : Int) :
    (s.setCompletePages i n).vmm = s.vmm := rfl

@[simp] theorem freePages_set (s : Heap) (f : TagField) (t v : Nat) :
    (s.set f t v).freePages = s.freePages := rfl

@[simp] theorem freePages_setFreePages (s : Heap) (i : Int) (v : Nat) :
    (s.setFreePages i v).freePages = Function.update s.freePages i v := rfl

theorem offset_lt (f : TagField) : f.offset ≤ 28 ∧ f.offset % 4 = 0 := by
  cases f <;> decide

theorem offset_inj {f g : TagField} (same : f.offset = g.offset) : f = g := by
  cases f <;> cases g <;> first | rfl | cases same

theorem liballocLock_some {s m : Heap} (locked : s.liballocLock = some m) :
    s.lock = 0 ∧ m = { s with lock := 1 } := by
  unfold Heap.liballocLock at locked
  split at locked
  · rename_i free
    exact ⟨free, (Option.some.inj locked).symm⟩
  · contradiction

theorem get_set {T : Finset Nat} (apart : HeadersApart T) (s : Heap) (f g : TagField) {t u v : Nat}
    (ht : t ∈ T) (hu : u ∈ T) (low : v < 2 ^ 32) :
    (s.set f t v).get g u = if u = t ∧ g = f then v else s.get g u := by
  obtain ⟨fits, headers⟩ := apart
  have fitT := fits t ht
  have fitU := fits u hu
  obtain ⟨fLow, fWord⟩ := offset_lt f
  obtain ⟨gLow, gWord⟩ := offset_lt g
  unfold Heap.get Heap.set
  rw [wrap_eq (n := f.offset + t) (by omega), wrap_eq (n := g.offset + u) (by omega)]
  by_cases same : u = t ∧ g = f
  · obtain ⟨rfl, rfl⟩ := same
    rw [if_pos ⟨rfl, rfl⟩]
    exact load32_store32 _ _ _ (by omega) low
  · rw [if_neg same]
    have distance : g.offset + u + 4 ≤ f.offset + t ∨ f.offset + t + 4 ≤ g.offset + u := by
      by_cases tag : u = t
      · have field : g.offset ≠ f.offset := fun e => same ⟨tag, offset_inj e⟩
        omega
      · have := headers u hu t ht tag
        omega
    refine load32_store32_other _ _ _ _ (by omega) (by omega) ?_ ?_
    · simp only [wsub, wrap]
      omega
    · simp only [wsub, wrap]
      omega

theorem setUnlessNull_rest (s : Heap) (f : TagField) (t v : Nat) :
    (s.setUnlessNull f t v).freePages = s.freePages ∧
      (s.setUnlessNull f t v).completePages = s.completePages ∧
      (s.setUnlessNull f t v).vmm = s.vmm ∧ (s.setUnlessNull f t v).lock = s.lock ∧
      (s.setUnlessNull f t v).initialized = s.initialized := by
  unfold Heap.setUnlessNull
  split <;> exact ⟨rfl, rfl, rfl, rfl, rfl⟩

def TagOrNull (T : Finset Nat) (t : Nat) : Prop := t ≠ 0 → t ∈ T

theorem get_setUnlessNull {T : Finset Nat} (apart : HeadersApart T) (null : 0 ∉ T) (s : Heap)
    (f g : TagField) {t u v : Nat} (ht : TagOrNull T t) (hu : u ∈ T) (low : v < 2 ^ 32) :
    (s.setUnlessNull f t v).get g u = if u = t ∧ g = f then v else s.get g u := by
  unfold Heap.setUnlessNull
  by_cases none : t = 0
  · have other : u ≠ t := fun e => null (none ▸ e ▸ hu)
    rw [if_neg (fun h => h none), if_neg (fun h => other h.1)]
  · rw [if_pos none]
    exact get_set apart s f g (ht none) hu low

def SameGlobals (s t : Heap) : Prop :=
  t.vmm = s.vmm ∧ t.lock = s.lock ∧ t.initialized = s.initialized ∧
    t.completePages = s.completePages

theorem SameGlobals.trans {s t u : Heap} (h : SameGlobals s t) (k : SameGlobals t u) :
    SameGlobals s u :=
  ⟨k.1.trans h.1, k.2.1.trans h.2.1, k.2.2.1.trans h.2.2.1, k.2.2.2.trans h.2.2.2⟩

section Operations

variable {T : Finset Nat} (apart : HeadersApart T) (null : 0 ∉ T) (s : Heap)

theorem removeTag_globals (tag : Nat) : SameGlobals s (s.removeTag tag) := by
  unfold Heap.removeTag
  dsimp only
  split <;> simp [SameGlobals, Heap.set, setUnlessNull_rest, Heap.setFreePages]

theorem removeTag_freePages (tag : Nat) (b : Int) : (s.removeTag tag).freePages b =
    if b = s.index tag ∧ s.freePages (s.index tag) = tag then s.get .next tag else s.freePages b := by
  unfold Heap.removeTag
  dsimp only
  by_cases top : s.freePages (s.index tag) = tag
  · simp only [top, if_true, and_true, freePages_set, setUnlessNull_rest, freePages_setFreePages,
      Function.update_apply]
  · simp only [top, if_false, and_false, freePages_set, setUnlessNull_rest]

theorem insertTag_rest (tag : Nat) (index : Int) : SameGlobals s (s.insertTag tag index) ∧
    (s.insertTag tag index).freePages = Function.update s.freePages (s.realIndex tag index) tag := by
  unfold Heap.insertTag
  dsimp only
  split <;> exact ⟨⟨rfl, rfl, rfl, rfl⟩, rfl⟩

theorem meltLeft_rest (tag : Nat) : SameGlobals s (s.meltLeft tag).1 ∧
    (s.meltLeft tag).1.freePages = s.freePages := by
  simp [Heap.meltLeft, SameGlobals, Heap.set, setUnlessNull_rest]

theorem absorbRight_rest (tag : Nat) : SameGlobals s (s.absorbRight tag) ∧
    (s.absorbRight tag).freePages = (s.removeTag (s.get .splitRight tag)).freePages := by
  have removed := removeTag_globals s (s.get .splitRight tag)
  simpa [Heap.absorbRight, SameGlobals, Heap.set, setUnlessNull_rest] using removed

theorem cutTag_rest (tag : Nat) : SameGlobals s (s.cutTag tag) ∧
    (s.cutTag tag).freePages = s.freePages := by
  simp [Heap.cutTag, SameGlobals, Heap.set, setUnlessNull_rest]

theorem writeTag_get (apart : HeadersApart T) {tag u size real : Nat} (ht : tag ∈ T) (hu : u ∈ T)
    (lowSize : size < 2 ^ 32) (lowReal : real < 2 ^ 32) (g : TagField) :
    (s.writeTag tag size real).get g u = if u = tag then (match g with
      | .magic => liballocMagic
      | .size => size
      | .realSize => real
      | .index => ofInt (-1)
      | _ => 0) else s.get g u := by
  have magic : liballocMagic < 2 ^ 32 := by decide
  have minus : ofInt (-1) < 2 ^ 32 := by decide
  have zero : (0 : Nat) < 2 ^ 32 := by decide
  unfold Heap.writeTag
  dsimp only
  cases g <;> simp only [get_set apart, ht, hu, lowSize, lowReal, magic, minus, zero, reduceCtorEq,
    and_true, and_false, if_false]

include apart null

theorem removeTag_get {tag u : Nat} (ht : tag ∈ T) (hu : u ∈ T)
    (hp : TagOrNull T (s.get .prev tag)) (hn : TagOrNull T (s.get .next tag)) (g : TagField) :
    (s.removeTag tag).get g u = match g with
      | .next => if u = tag then 0 else if u = s.get .prev tag then s.get .next tag else s.get .next u
      | .prev => if u = tag then 0 else if u = s.get .next tag then s.get .prev tag else s.get .prev u
      | .index => if u = tag then ofInt (-1) else s.get .index u
      | g => s.get g u := by
  have minus : ofInt (-1) < 2 ^ 32 := by decide
  have zero : (0 : Nat) < 2 ^ 32 := by decide
  have lowN := get_lt s .next tag
  have lowP := get_lt s .prev tag
  have same : ∀ f v, (if s.freePages (s.index tag) = tag then
      s.setFreePages (s.index tag) (s.get .next tag) else s).get f v = s.get f v := by
    intro f v
    split <;> rfl
  unfold Heap.removeTag
  dsimp only
  cases g <;> simp only [get_set apart, get_setUnlessNull apart null, same, ht, hu, hp, hn, minus,
    zero, lowN, lowP, reduceCtorEq, and_true, and_false, if_false, ite_self]

theorem insertTag_get {tag u : Nat} {index b : Int} (bucket : s.realIndex tag index = b)
    (ht : tag ∈ T) (hu : u ∈ T) (hh : TagOrNull T (s.freePages b)) (clear : s.get .next tag = 0)
    (g : TagField) :
    (s.insertTag tag index).get g u = match g with
      | .next => if u = tag then s.freePages b else s.get .next u
      | .prev => if u = s.freePages b then tag else s.get .prev u
      | .index => if u = tag then ofInt b else s.get .index u
      | g => s.get g u := by
  have low : ofInt b < 2 ^ 32 := by
    unfold ofInt
    omega
  have lowTag : tag < 2 ^ 32 := by
    have := apart.1 tag ht
    omega
  have known : u ≠ 0 := fun e => null (e ▸ hu)
  unfold Heap.insertTag
  dsimp only
  rw [bucket]
  by_cases empty : s.freePages b = 0
  · simp only [freePages_set, empty, ne_eq, not_true_eq_false, if_false, get_setFreePages]
    cases g <;> simp only [get_set apart, ht, hu, low, known, reduceCtorEq, and_true, and_false, if_false]
    by_cases here : u = tag
    · rw [if_pos here, here, clear]
    · rw [if_neg here]
  · have memH := hh empty
    have lowH : s.freePages b < 2 ^ 32 := by
      have := apart.1 _ memH
      omega
    simp only [freePages_set, empty, ne_eq, not_false_eq_true, if_true, get_setFreePages]
    cases g <;> simp only [get_set apart, ht, hu, memH, low, lowTag, lowH, reduceCtorEq, and_true,
      and_false, if_false]

theorem meltLeft_get {tag u : Nat} (ht : tag ∈ T) (hu : u ∈ T) (hl : s.get .splitLeft tag ∈ T)
    (hr : TagOrNull T (s.get .splitRight tag)) (g : TagField) :
    (s.meltLeft tag).1.get g u = match g with
      | .realSize => if u = s.get .splitLeft tag then
          wrap (s.get .realSize (s.get .splitLeft tag) + s.get .realSize tag) else s.get .realSize u
      | .splitRight => if u = s.get .splitLeft tag then s.get .splitRight tag else s.get .splitRight u
      | .splitLeft => if u = s.get .splitRight tag then s.get .splitLeft tag else s.get .splitLeft u
      | g => s.get g u := by
  have sum := wrap_lt (s.get .realSize (s.get .splitLeft tag) + s.get .realSize tag)
  have lowR := get_lt s .splitRight tag
  have lowL := get_lt s .splitLeft tag
  unfold Heap.meltLeft
  dsimp only
  cases g <;> simp only [get_set apart, get_setUnlessNull apart null, ht, hu, hl, hr, sum, lowR,
    lowL, reduceCtorEq, and_true, and_false, if_false, ite_self]

theorem absorbRight_get {tag u r : Nat} (ht : tag ∈ T) (hu : u ∈ T)
    (right : s.get .splitRight tag = r) (hr : r ∈ T) (other : r ≠ tag)
    (hrr : TagOrNull T (s.get .splitRight r)) (hp : TagOrNull T (s.get .prev r))
    (hn : TagOrNull T (s.get .next r)) (g : TagField) :
    (s.absorbRight tag).get g u = match g with
      | .realSize => if u = tag then wrap (s.get .realSize tag + s.get .realSize r)
          else s.get .realSize u
      | .splitRight => if u = tag then s.get .splitRight r else s.get .splitRight u
      | .splitLeft => if u = s.get .splitRight r then tag else s.get .splitLeft u
      | g => (s.removeTag r).get g u := by
  have removed := fun v (hv : v ∈ T) => removeTag_get apart null s hr hv hp hn
  have sum := wrap_lt (s.get .realSize tag + s.get .realSize r)
  have lowR := get_lt s .splitRight r
  have lowTag : tag < 2 ^ 32 := by
    have := apart.1 tag ht
    omega
  unfold Heap.absorbRight
  dsimp only
  rw [right]
  cases g <;> simp only [get_set apart, get_setUnlessNull apart null, removed, ht, hu, hr, hrr, other,
    sum, lowR, lowTag, reduceCtorEq, and_true, and_false, if_false, ite_self]

theorem cutTag_get {tag u n rest : Nat} (ht : tag ∈ T) (hu : u ∈ T) (new : s.newTag tag = n)
    (hn : n ∈ T) (other : tag ≠ n) (hr : TagOrNull T (s.get .splitRight tag))
    (remainder : wsub (wsub (s.get .realSize tag) sizeofTag) (s.get .size tag) = rest)
    (g : TagField) :
    (s.cutTag tag).get g u = match g with
      | .magic => if u = n then liballocMagic else s.get .magic u
      | .realSize => if u = tag then wsub (s.get .realSize tag) rest else
          if u = n then rest else s.get .realSize u
      | .next => if u = n then 0 else s.get .next u
      | .prev => if u = n then 0 else s.get .prev u
      | .splitLeft => if u = s.get .splitRight tag then n else if u = n then tag
          else s.get .splitLeft u
      | .splitRight => if u = tag then n else if u = n then s.get .splitRight tag
          else s.get .splitRight u
      | g => s.get g u := by
  have magic : liballocMagic < 2 ^ 32 := by decide
  have zero : (0 : Nat) < 2 ^ 32 := by decide
  have lowR := get_lt s .splitRight tag
  have lowTag : tag < 2 ^ 32 := by
    have := apart.1 tag ht
    omega
  have lowN : n < 2 ^ 32 := by
    have := apart.1 n hn
    omega
  have lowRest : rest < 2 ^ 32 := by
    rw [← remainder]
    exact wrap_lt _
  have lowReal : wsub (s.get .realSize tag) rest < 2 ^ 32 := wrap_lt _
  unfold Heap.cutTag
  dsimp only
  rw [new, remainder]
  cases g <;> simp only [get_set apart, get_setUnlessNull apart null, ht, hu, hn, hr, other, magic,
    zero, lowR, lowTag, lowN, lowRest, lowReal, reduceCtorEq, and_true, and_false, if_true, if_false]

end Operations

end RiseOS
