import RiseOS.Library.Memory

/-! The descriptor tables of a 32-bit x86 as the processor reads them: segments,
interrupt gates, and the way from a vector to the address where its handler begins. -/
namespace X86
open Words

structure TableReg where
  limit : Nat
  base : Nat
  deriving DecidableEq

/-- The operand of lgdt and lidt. -/
def readTableReg (m : Memory) (a : Nat) : TableReg := ⟨load16 m a, load32 m (wrap (a + 2))⟩

/-- `kind` is the S bit above the four bits of the type. -/
structure Gate where
  offset : Nat
  selector : Nat
  kind : Nat
  dpl : Nat
  present : Bool
  deriving DecidableEq

def readGate (m : Memory) (a : Nat) : Gate where
  offset := load16 m a + 65536 * load16 m (a + 6)
  selector := load16 m (a + 2)
  kind := load8 m (a + 5) % 32
  dpl := load8 m (a + 5) / 32 % 4
  present := load8 m (a + 5) / 128 % 2 = 1

structure Segment where
  base : Nat
  limit : Nat
  kind : Nat
  dpl : Nat
  present : Bool
  big : Bool
  granular : Bool
  deriving DecidableEq

def readSegment (m : Memory) (a : Nat) : Segment where
  base := load16 m (a + 2) + 65536 * load8 m (a + 4) + 16777216 * load8 m (a + 7)
  limit := load16 m a + 65536 * (load8 m (a + 6) % 16)
  kind := load8 m (a + 5) % 32
  dpl := load8 m (a + 5) / 32 % 4
  present := load8 m (a + 5) / 128 % 2 = 1
  big := load8 m (a + 6) / 64 % 2 = 1
  granular := load8 m (a + 6) / 128 % 2 = 1

/-- The last offset in the segment: a granular limit counts pages. -/
def Segment.last (d : Segment) : Nat := if d.granular then 4096 * d.limit + 4095 else d.limit

/-- Code: the S bit is set, and the top bit of the type. -/
def Segment.code (d : Segment) : Bool := 24 ≤ d.kind

/-- Data: the S bit is set, and the top bit of the type is not. -/
def Segment.data (d : Segment) : Bool := 16 ≤ d.kind ∧ d.kind < 24

structure Machine where
  mem : Memory
  gdtr : TableReg
  idtr : TableReg
  cs : Nat
  ss : Nat
  ds : Nat
  es : Nat
  fs : Nat
  gs : Nat

/-- The segment of a selector of the global table; selector 0 has none. -/
def Machine.segment (s : Machine) (selector : Nat) : Option Segment :=
  if selector / 8 ≠ 0 ∧ selector / 4 % 2 = 0 ∧ 8 * (selector / 8) + 7 ≤ s.gdtr.limit then
    some (readSegment s.mem (s.gdtr.base + 8 * (selector / 8)))
  else none

def Machine.gate (s : Machine) (vector : Nat) : Option Gate :=
  if 8 * vector + 7 ≤ s.idtr.limit then some (readGate s.mem (s.idtr.base + 8 * vector)) else none

/-- Where a vector leads: through a present interrupt gate of 32 bits into a present
code segment that has its offset. -/
def Machine.entry (s : Machine) (vector : Nat) : Option Nat :=
  (s.gate vector).bind fun g =>
    if g.present ∧ g.kind = 14 then
      (s.segment g.selector).bind fun d =>
        if d.present ∧ d.code ∧ g.offset ≤ d.last then some (wrap (d.base + g.offset)) else none
    else none

theorem Machine.segment_eq {s : Machine} {limit base : Nat} (gdtr : s.gdtr = ⟨limit, base⟩) {i : Nat}
    (other : i ≠ 0) (inside : 8 * i + 7 ≤ limit) :
    s.segment (8 * i) = some (readSegment s.mem (base + 8 * i)) := by
  have index : 8 * i / 8 = i := Nat.mul_div_cancel_left i (by decide)
  unfold Machine.segment
  rw [gdtr, index, if_pos ⟨other, by omega, inside⟩]

theorem Machine.gate_eq {s : Machine} {limit base : Nat} (idtr : s.idtr = ⟨limit, base⟩) (v : Nat) :
    s.gate v = if 8 * v + 7 ≤ limit then some (readGate s.mem (base + 8 * v)) else none := by
  unfold Machine.gate
  rw [idtr]

/-! ### An entry is its eight bytes -/

theorem readTableReg_congr {m m' : Memory} {a : Nat} (room : a + 6 ≤ 2 ^ 32)
    (same : ∀ k, k < 6 → load8 m' (a + k) = load8 m (a + k)) :
    readTableReg m' a = readTableReg m a := by
  have s0 := same 0 (by decide)
  rw [Nat.add_zero] at s0
  have words : ∀ n : Memory, load32 n (a + 2) =
      load8 n (a + 2) + 256 * load8 n (a + 3) + 65536 * load8 n (a + 4) + 16777216 * load8 n (a + 5) :=
    fun _ => rfl
  unfold readTableReg load16
  rw [wrap_eq (by omega), words, words, s0, same 1 (by decide), same 2 (by decide),
    same 3 (by decide), same 4 (by decide), same 5 (by decide)]

/-- What `limit` and `base` of a packed pointer become. -/
theorem readTableReg_stored (m : Memory) {a : Nat} (limit base : Nat) (room : a + 6 ≤ 2 ^ 32)
    (half : limit < 2 ^ 16) (word : base < 2 ^ 32) :
    readTableReg (store32 (store16 m a limit) (a + 2) base) a = ⟨limit, base⟩ := by
  unfold readTableReg load16
  rw [wrap_eq (by omega), load32_store32 _ _ _ (by omega) word]
  rw [load8_store32 _ _ _ _ (by omega) (by omega) (.inl (by omega)),
    load8_store32 _ _ _ _ (by omega) (by omega) (.inl (by omega)),
    load8_store16 _ _ _ _ (by omega) (by omega), load8_store16 _ _ _ _ (by omega) (by omega),
    if_neg (by omega), if_pos rfl, if_pos rfl]
  congr 1
  omega

theorem readGate_congr {m m' : Memory} {a : Nat}
    (same : ∀ k, k < 8 → load8 m' (a + k) = load8 m (a + k)) : readGate m' a = readGate m a := by
  have s0 := same 0 (by decide)
  rw [Nat.add_zero] at s0
  unfold readGate load16
  rw [s0, same 1 (by decide), same 2 (by decide), same 3 (by decide), same 5 (by decide),
    same 6 (by decide), same 7 (by decide)]

theorem readSegment_congr {m m' : Memory} {a : Nat}
    (same : ∀ k, k < 8 → load8 m' (a + k) = load8 m (a + k)) :
    readSegment m' a = readSegment m a := by
  have s0 := same 0 (by decide)
  rw [Nat.add_zero] at s0
  unfold readSegment load16
  rw [s0, same 1 (by decide), same 2 (by decide), same 3 (by decide), same 4 (by decide),
    same 5 (by decide), same 6 (by decide), same 7 (by decide)]

end X86
