import Mathlib.Logic.Function.Basic
import RiseOS.Library.Words

/-! Byte memory with little-endian 32-bit words, addresses modulo 2^32, and a
stack that grows down in it. -/
namespace Words

abbrev Memory := Nat → BitVec 8

def load32 (m : Memory) (a : Nat) : Nat :=
  (m (wrap a)).toNat + 256 * (m (wrap (a + 1))).toNat + 65536 * (m (wrap (a + 2))).toNat +
    16777216 * (m (wrap (a + 3))).toNat

def store32 (m : Memory) (a v : Nat) : Memory :=
  fun x => if wsub x a < 4 then BitVec.ofNat 8 (v / 256 ^ wsub x a) else m x

theorem load32_lt (m : Memory) (a : Nat) : load32 m a < 2 ^ 32 := by
  unfold load32
  have b0 := (m (wrap a)).isLt
  have b1 := (m (wrap (a + 1))).isLt
  have b2 := (m (wrap (a + 2))).isLt
  have b3 := (m (wrap (a + 3))).isLt
  omega

theorem wsub_wrap_add {a k : Nat} (word : a < 2 ^ 32) (low : k < 2 ^ 32) :
    wsub (wrap (a + k)) a = k := by
  simp only [wsub, wrap]
  omega

/-- Two words overlap unless each begins at least four bytes behind the other. -/
theorem wsub_apart {a b k : Nat} (wordA : a < 2 ^ 32) (wordB : b < 2 ^ 32)
    (before : 4 ≤ wsub a b) (behind : 4 ≤ wsub b a) (low : k < 4) : ¬ wsub (wrap (b + k)) a < 4 := by
  simp only [wsub, wrap] at before behind ⊢
  omega

theorem store32_other (m : Memory) (a v x : Nat) (outside : ¬ wsub x a < 4) :
    store32 m a v x = m x := if_neg outside

theorem load32_wrap (m : Memory) (a : Nat) : load32 m (wrap a) = load32 m a := by
  have inner : ∀ k, wrap (wrap a + k) = wrap (a + k) := by
    intro k
    simp only [wrap]
    omega
  have first := inner 0
  rw [Nat.add_zero, Nat.add_zero] at first
  unfold load32
  rw [inner, inner, inner, first]

theorem load32_congr {m m' : Memory} {a : Nat}
    (same : ∀ k, k < 4 → m' (wrap (a + k)) = m (wrap (a + k))) : load32 m' a = load32 m a := by
  have s0 := same 0 (by decide)
  rw [Nat.add_zero] at s0
  rw [load32, load32, s0, same 1 (by decide), same 2 (by decide), same 3 (by decide)]

theorem byte_load32 (m : Memory) (a : Nat) {k : Nat} (inside : k < 4) :
    BitVec.ofNat 8 (load32 m a / 256 ^ k) = m (wrap (a + k)) := by
  have b0 := (m (wrap a)).isLt
  have b1 := (m (wrap (a + 1))).isLt
  have b2 := (m (wrap (a + 2))).isLt
  have b3 := (m (wrap (a + 3))).isLt
  apply BitVec.eq_of_toNat_eq
  rw [BitVec.toNat_ofNat]
  unfold load32
  obtain rfl | rfl | rfl | rfl : k = 0 ∨ k = 1 ∨ k = 2 ∨ k = 3 := by omega
  · rw [Nat.add_zero a, Nat.pow_zero, Nat.div_one]
    omega
  all_goals omega

theorem store32_load32 (m : Memory) {a x : Nat} (word : a < 2 ^ 32) (low : x < 2 ^ 32) :
    store32 m a (load32 m a) x = m x := by
  unfold store32
  split
  · rename_i inside
    rw [byte_load32 m a inside, wsub]
    congr 1
    simp only [wrap]
    omega
  · rfl

theorem load32_store32 (m : Memory) (a v : Nat) (word : a < 2 ^ 32) (low : v < 2 ^ 32) :
    load32 (store32 m a v) a = v := by
  have hit : ∀ k, k < 4 → store32 m a v (wrap (a + k)) = BitVec.ofNat 8 (v / 256 ^ k) := by
    intro k hk
    unfold store32
    rw [wsub_wrap_add word (by omega), if_pos hk]
  have h0 := hit 0 (by decide)
  rw [Nat.add_zero] at h0
  unfold load32
  rw [h0, hit 1 (by decide), hit 2 (by decide), hit 3 (by decide)]
  simp only [BitVec.toNat_ofNat]
  omega

theorem load32_store32_other (m : Memory) (a b v : Nat) (wordA : a < 2 ^ 32) (wordB : b < 2 ^ 32)
    (before : 4 ≤ wsub a b) (behind : 4 ≤ wsub b a) :
    load32 (store32 m a v) b = load32 m b :=
  load32_congr fun _ hk => store32_other m a v _ (wsub_apart wordA wordB before behind hk)

/-! ### Bytes and halves of words -/

def store8 (m : Memory) (a v : Nat) : Memory := Function.update m (wrap a) (BitVec.ofNat 8 v)

def store16 (m : Memory) (a v : Nat) : Memory := store8 (store8 m a v) (a + 1) (v / 256)

def load8 (m : Memory) (a : Nat) : Nat := (m (wrap a)).toNat

def load16 (m : Memory) (a : Nat) : Nat := load8 m a + 256 * load8 m (a + 1)

theorem load8_store8 (m : Memory) (a b v : Nat) (wordA : a < 2 ^ 32) (wordB : b < 2 ^ 32) :
    load8 (store8 m a v) b = if b = a then v % 256 else load8 m b := by
  unfold load8 store8
  rw [wrap_eq wordA, wrap_eq wordB, Function.update_apply]
  split
  · rfl
  · rfl

theorem load8_store16 (m : Memory) (a b v : Nat) (wordA : a + 1 < 2 ^ 32) (wordB : b < 2 ^ 32) :
    load8 (store16 m a v) b =
      if b = a + 1 then v / 256 % 256 else if b = a then v % 256 else load8 m b := by
  unfold store16
  rw [load8_store8 _ _ _ _ wordA wordB, load8_store8 _ _ _ _ (by omega) wordB]

theorem load8_store32 (m : Memory) (a b v : Nat) (wordB : b < 2 ^ 32)
    (wordA : a + 3 < 2 ^ 32) (outside : b < a ∨ a + 4 ≤ b) : load8 (store32 m a v) b = load8 m b := by
  unfold load8
  rw [store32_other]
  simp only [wsub, wrap]
  omega

/-! ### Filling -/

/-- `buf[i] = c` for `count` rounds from `i` on. -/
def fillBytes (buf : Nat) (c : BitVec 8) : (count i : Nat) → Memory → Memory
  | 0, _, m => m
  | count + 1, i, m => fillBytes buf c count (i + 1) (Function.update m (wrap (buf + i)) c)

theorem fillBytes_apply {buf : Nat} {c : BitVec 8} {count i : Nat} (room : buf + i + count ≤ 2 ^ 32)
    (m : Memory) (a : Nat) :
    fillBytes buf c count i m a = if buf + i ≤ a ∧ a < buf + i + count then c else m a := by
  induction count generalizing i m with
  | zero =>
    rw [fillBytes, if_neg (by omega)]
  | succ count ih =>
    rw [fillBytes, ih (by omega), wrap_eq (by omega), Function.update_apply]
    by_cases first : a = buf + i
    · rw [if_neg (by omega), if_pos first, if_pos (by omega)]
    · rw [if_neg first]
      by_cases inside : buf + (i + 1) ≤ a ∧ a < buf + (i + 1) + count
      · rw [if_pos inside, if_pos (by omega)]
      · rw [if_neg inside, if_neg (by omega)]

/-! ### A stack in memory -/

def pushAll (m : Memory) (sp : Nat) : List Nat → Memory
  | [] => m
  | v :: rest => pushAll (store32 m (wsub sp 4) v) (wsub sp 4) rest

theorem pushAll_snoc (vs : List Nat) (m : Memory) (sp v : Nat)
    (room : 4 * vs.length + 4 ≤ 2 ^ 32) : pushAll m sp (vs ++ [v]) =
      store32 (pushAll m sp vs) (wsub sp (4 * vs.length + 4)) v := by
  induction vs generalizing m sp with
  | nil => rfl
  | cons w rest ih =>
    rw [List.length_cons] at room
    have deeper : wsub (wsub sp 4) (4 * rest.length + 4) = wsub sp (4 * (w :: rest).length + 4) := by
      rw [List.length_cons]
      simp only [wsub, wrap]
      omega
    rw [List.cons_append, pushAll, ih _ _ (by omega), deeper, pushAll]

/-- A stack grows downwards. -/
theorem pushAll_above (vs : List Nat) (m : Memory) {sp a : Nat} (room : 4 * vs.length ≤ sp)
    (above : sp ≤ a) (word : a < 2 ^ 32) : pushAll m sp vs a = m a := by
  induction vs generalizing m sp with
  | nil => rfl
  | cons v rest ih =>
    rw [List.length_cons] at room
    have lower : wsub sp 4 = sp - 4 := wsub_eq (by omega) (by omega)
    rw [pushAll, lower, ih _ (by omega) (by omega), store32_other]
    rw [wsub_eq word (by omega)]
    omega

theorem load32_pushAll (vs : List Nat) (m : Memory) (sp d : Nat)
    (room : 4 * vs.length + d + 4 ≤ 2 ^ 32) :
    load32 (pushAll m sp vs) (wrap (sp + d)) = load32 m (wrap (sp + d)) := by
  induction vs generalizing m sp d with
  | nil => rw [pushAll]
  | cons v rest ih =>
    rw [List.length_cons] at room
    have same : wrap (sp + d) = wrap (wsub sp 4 + (d + 4)) := by
      simp only [wsub, wrap]
      omega
    rw [pushAll, same, ih _ _ (d + 4) (by omega)]
    refine load32_store32_other m (wsub sp 4) _ v (wrap_lt _) (wrap_lt _) ?_ ?_
    · simp only [wsub, wrap]
      omega
    · simp only [wsub, wrap]
      omega

theorem load32_pushed (vs : List Nat) (m : Memory) (sp k v : Nat) (pushed : vs[k]? = some v)
    (low : v < 2 ^ 32) (room : 4 * vs.length ≤ 2 ^ 32) :
    load32 (pushAll m sp vs) (wsub sp (4 * (k + 1))) = v := by
  induction vs generalizing m sp k with
  | nil => cases pushed
  | cons w rest ih =>
    rw [List.length_cons] at room
    cases k with
    | zero =>
      obtain rfl : w = v := by simpa using pushed
      have top := load32_pushAll rest (store32 m (wsub sp 4) w) (wsub sp 4) 0 (by omega)
      rw [Nat.add_zero, wrap_eq (n := wsub sp 4) (wrap_lt _)] at top
      rw [pushAll, Nat.zero_add, Nat.mul_one, top]
      exact load32_store32 m _ w (wrap_lt _) low
    | succ k =>
      have inside : k < rest.length := by
        have := (List.getElem?_eq_some_iff.mp pushed).1
        rw [List.length_cons] at this
        omega
      have deeper : wsub sp (4 * (k + 1 + 1)) = wsub (wsub sp 4) (4 * (k + 1)) := by
        simp only [wsub, wrap]
        omega
      rw [pushAll, deeper]
      exact ih _ _ k (by simpa using pushed) (by omega)

end Words
