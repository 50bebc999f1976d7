import Mathlib.Data.List.GetD
import Mathlib.Data.Nat.Find
import RiseOS.Library.Memory

/-! NUL-terminated strings, read from a pointer on, and texts laid over the
bytes of a buffer. -/
namespace Strings
open Words

/-- A character constant. -/
def ch (c : Char) : BitVec 8 := BitVec.ofNat 8 c.toNat

/-- The bytes from a pointer on. Addresses are 32-bit words. -/
def window (m : Memory) (a : Nat) : Nat → BitVec 8 := fun k => m (wrap (a + k))

structure CString (t : Nat → BitVec 8) (text : List (BitVec 8)) : Prop where
  chars : ∀ k (inside : k < text.length), t k = text[k]
  nonzero : ∀ c ∈ text, c ≠ 0#8
  nul : t text.length = 0#8

/-- The bytes before the first NUL. Reading on for 2^32 bytes visits all memory. -/
def stringAt (t : Nat → BitVec 8) : List (BitVec 8) :=
  ((List.range (2 ^ 32)).map t).takeWhile (fun c => c ≠ 0#8)

/-- The buffer `b` with `text` written at `pos`. -/
def overlay (b : Nat → BitVec 8) (pos : Nat) (text : List (BitVec 8)) : Nat → BitVec 8 :=
  fun k => if pos ≤ k then text.getD (k - pos) (b k) else b k

theorem cstring_cons (t : Nat → BitVec 8) (c : BitVec 8) (text : List (BitVec 8)) :
    CString t (c :: text) ↔ t 0 = c ∧ c ≠ 0#8 ∧ CString (fun k => t (k + 1)) text := by
  constructor
  · intro h
    refine ⟨h.chars 0 (Nat.succ_pos _), h.nonzero c List.mem_cons_self, ?_, ?_, h.nul⟩
    · intro k inside
      exact h.chars (k + 1) (Nat.succ_lt_succ inside)
    · intro d member
      exact h.nonzero d (List.mem_cons_of_mem c member)
  · rintro ⟨first, nonzero, rest⟩
    refine ⟨fun k inside => ?_, fun d member => ?_, rest.nul⟩
    · cases k with
      | zero => exact first
      | succ k => exact rest.chars k (Nat.lt_of_succ_lt_succ inside)
    · rcases List.mem_cons.mp member with rfl | member
      · exact nonzero
      · exact rest.nonzero d member

/-- A loop that stands at `i` sees the first character there. -/
theorem cstring_from_cons {t : Nat → BitVec 8} {i : Nat} {c : BitVec 8} {rest : List (BitVec 8)}
    (string : CString (fun k => t (i + k)) (c :: rest)) :
    t i = c ∧ c ≠ 0#8 ∧ CString (fun k => t (i + 1 + k)) rest := by
  obtain ⟨first, nonzero, later⟩ := (cstring_cons _ c rest).mp string
  have shifted : (fun k => t (i + 1 + k)) = fun k => t (i + (k + 1)) := by
    funext k
    rw [Nat.add_assoc, Nat.add_comm 1 k]
  exact ⟨first, nonzero, shifted ▸ later⟩

theorem cstring_from_zero {t : Nat → BitVec 8} {text : List (BitVec 8)} (string : CString t text) :
    CString (fun k => t (0 + k)) text := by
  have whole : (fun k => t (0 + k)) = t := by
    funext k
    rw [Nat.zero_add]
  exact whole.symm ▸ string

theorem window_succ (m : Memory) (a : Nat) : (fun k => window m a (k + 1)) = window m (a + 1) := by
  funext k
  unfold window
  rw [Nat.add_assoc a 1 k, Nat.add_comm 1 k]

theorem cstring_window_cons (m : Memory) (a : Nat) (c : BitVec 8) (text : List (BitVec 8)) :
    CString (window m a) (c :: text) ↔
      window m a 0 = c ∧ c ≠ 0#8 ∧ CString (window m (a + 1)) text := by
  rw [cstring_cons, window_succ]

/-- A string ends before its window comes round to where it began. -/
theorem cstring_window_lt {m : Memory} {a : Nat} {text : List (BitVec 8)}
    (string : CString (window m a) text) : text.length < 2 ^ 32 := by
  by_contra long
  have again : window m a text.length = window m a (text.length - 2 ^ 32) := by
    unfold window wrap
    exact congrArg m (by omega)
  have inside : text.length - 2 ^ 32 < text.length := by omega
  have byte := string.chars _ inside
  exact string.nonzero _ (List.getElem_mem inside) (by rw [← byte, ← again, string.nul])

/-- Memory that holds a NUL ends every string. -/
theorem window_ends {m : Memory} {z : Nat} (nul : m (wrap z) = 0#8) (a : Nat) :
    ∃ k, k < 2 ^ 32 ∧ window m a k = 0#8 := by
  refine ⟨wsub z (wrap a), wrap_lt _, ?_⟩
  have back : wrap (a + wsub z (wrap a)) = wrap z := by
    simp only [wsub, wrap]
    omega
  rw [window, back, nul]

theorem takeWhile_string {t : Nat → BitVec 8} {text : List (BitVec 8)} (string : CString t text)
    (n : Nat) (long : text.length < n) :
    ((List.range n).map t).takeWhile (fun c => c ≠ 0#8) = text := by
  obtain ⟨r, rfl⟩ : ∃ r, n = text.length + (r + 1) := ⟨n - text.length - 1, by omega⟩
  have before : (List.range text.length).map t = text := by
    refine List.ext_getElem (by simp) fun k _ inside => ?_
    rw [List.getElem_map, List.getElem_range]
    exact string.chars k inside
  rw [List.range_add, List.map_append, before, List.range_succ_eq_map,
    List.takeWhile_append_of_pos (fun c member => by simpa using string.nonzero c member)]
  simp [string.nul]

theorem stringAt_eq {t : Nat → BitVec 8} {text : List (BitVec 8)} (string : CString t text)
    (short : text.length < 2 ^ 32) : stringAt t = text := takeWhile_string string _ short

theorem stringAt_cstring {t : Nat → BitVec 8} (ends : ∃ k, k < 2 ^ 32 ∧ t k = 0#8) :
    CString t (stringAt t) ∧ (stringAt t).length < 2 ^ 32 := by
  have some : ∃ k, t k = 0#8 := ends.imp fun _ h => h.2
  obtain ⟨k, below, zero⟩ := ends
  have first : Nat.find some ≤ k := Nat.find_min' some zero
  have string : CString t ((List.range (Nat.find some)).map t) := by
    refine ⟨fun j inside => by simp, fun c member => ?_, ?_⟩
    · obtain ⟨j, inside, rfl⟩ := List.mem_map.mp member
      exact Nat.find_min some (List.mem_range.mp inside)
    · rw [List.length_map, List.length_range]
      exact Nat.find_spec some
  have short : ((List.range (Nat.find some)).map t).length < 2 ^ 32 := by
    rw [List.length_map, List.length_range]
    omega
  rw [stringAt_eq string short]
  exact ⟨string, short⟩

/-- Memory that holds a text at address 0 and zeros elsewhere. -/
def textMemory (bs : List (BitVec 8)) : Memory := fun a => bs.getD a 0#8

theorem textMemory_string {bs : List (BitVec 8)} (nonzero : ∀ c ∈ bs, c ≠ 0#8)
    (short : bs.length < 2 ^ 32) : CString (window (textMemory bs) 0) bs := by
  refine ⟨fun k inside => ?_, nonzero, ?_⟩
  · unfold window textMemory
    rw [Nat.zero_add, wrap_eq (n := k) (by omega), List.getD_eq_getElem _ _ inside]
  · unfold window textMemory
    rw [Nat.zero_add, wrap_eq short, List.getD_eq_default _ _ (Nat.le_refl _)]

theorem string_ends {m : Memory} {a : Nat} {bs : List (BitVec 8)} (string : CString (window m a) bs) :
    ∃ z, m (wrap z) = 0#8 := ⟨_, string.nul⟩

/-! ### Buffers -/

theorem overlay_nil (b : Nat → BitVec 8) (pos : Nat) : overlay b pos [] = b := by
  funext k
  simp [overlay]

theorem overlay_single (b : Nat → BitVec 8) (pos : Nat) (c : BitVec 8) :
    overlay b pos [c] = Function.update b pos c := by
  funext k
  unfold overlay
  by_cases here : k = pos
  · simp [here]
  · rw [Function.update_of_ne here]
    split
    · rw [List.getD_eq_default _ _ (by rw [List.length_singleton]; omega)]
    · rfl

theorem overlay_inside (b : Nat → BitVec 8) (pos : Nat) {text : List (BitVec 8)} {k : Nat}
    (inside : k < text.length) : overlay b pos text (pos + k) = text[k] := by
  rw [overlay, if_pos (Nat.le_add_right pos k), Nat.add_sub_cancel_left, List.getD_eq_getElem _ _ inside]

theorem overlay_behind {b : Nat → BitVec 8} {pos k : Nat} {text : List (BitVec 8)}
    (behind : pos + text.length ≤ k) : overlay b pos text k = b k := by
  rw [overlay, if_pos (by omega), List.getD_eq_default _ _ (by omega)]

/-- A text is continued where it ended; what `tail` had left there is overwritten. -/
theorem overlay_overlay (b : Nat → BitVec 8) (pos : Nat) (first tail second : List (BitVec 8))
    (covered : tail.length ≤ second.length) :
    overlay (overlay b pos (first ++ tail)) (pos + first.length) second =
      overlay b pos (first ++ second) := by
  funext k
  unfold overlay
  by_cases before : k < pos + first.length
  · rw [if_neg (by omega)]
    split
    · rw [List.getD_append _ _ _ _ (by omega), List.getD_append _ _ _ _ (by omega)]
    · rfl
  · have shift : k - pos - first.length = k - (pos + first.length) := by omega
    rw [if_pos (by omega), if_pos (by omega), if_pos (by omega),
      List.getD_append_right _ _ _ _ (by omega), List.getD_append_right _ _ _ _ (by omega), shift]
    by_cases inside : k - (pos + first.length) < second.length
    · rw [List.getD_eq_getElem _ _ inside, List.getD_eq_getElem _ _ inside]
    · rw [List.getD_eq_default second _ (by omega), List.getD_eq_default second _ (by omega),
        List.getD_eq_default tail _ (by omega)]

theorem cstring_overlay (b : Nat → BitVec 8) {text : List (BitVec 8)}
    (nonzero : ∀ c ∈ text, c ≠ 0#8) : CString (overlay b 0 (text ++ [0#8])) text := by
  refine ⟨fun k inside => ?_, nonzero, ?_⟩
  · have longer : k < (text ++ [0#8]).length := by
      rw [List.length_append]
      omega
    have here := overlay_inside b 0 longer
    rw [Nat.zero_add] at here
    rw [here, List.getElem_append_left inside]
  · have last : text.length < (text ++ [0#8]).length := by simp
    have here := overlay_inside b 0 last
    rw [Nat.zero_add] at here
    rw [here, List.getElem_concat_length rfl]

end Strings
