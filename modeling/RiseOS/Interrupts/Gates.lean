import RiseOS.Interrupts.Delivery
import RiseOS.Kernel.Idt
import RiseOS.Libc.Bytes

/-! What gdt_install, idt_install, isrs_install and irq_install leave for the
processor: where every vector leads, and where a pulled line does. -/
namespace RiseOS
open Words X86 Pic

theorem nibbles (limit : Nat) {gran : Nat} (byteGran : gran < 256) :
    (limit &&& 0x0F) % 256 ||| (gran &&& 0xF0) = limit % 16 + 16 * (gran / 16) := by
  have low : limit &&& 0x0F = limit % 16 := Nat.and_two_pow_sub_one_eq_mod limit 4
  have high : ∀ g : Fin 256, g.val &&& 0xF0 = 2 ^ 4 * (g.val / 16) := by decide +kernel
  have small : limit % 16 < 2 ^ 4 := Nat.mod_lt _ (by decide)
  rw [low, high ⟨gran, byteGran⟩, Nat.mod_eq_of_lt (by omega), Nat.or_comm,
    ← Nat.two_pow_add_eq_or_of_lt small, Nat.add_comm]

theorem gdtSetGate_elsewhere (m : Memory) {gdt num base limit access gran b : Nat}
    (room : gdt + 8 * num + 8 ≤ 2 ^ 32) (word : b < 2 ^ 32)
    (outside : b < gdt + 8 * num ∨ gdt + 8 * num + 8 ≤ b) :
    load8 (gdtSetGate m gdt num base limit access gran) b = load8 m b := by
  unfold gdtSetGate
  dsimp only
  simp (disch := omega) only [load8_store8, load8_store16, if_neg]

theorem gdtSetGate_reads (m : Memory) (num : Nat) {gdt base limit access gran : Nat}
    (room : gdt + 8 * num + 8 ≤ 2 ^ 32) (wordBase : base < 2 ^ 32) (byteAccess : access < 2 ^ 8)
    (byteGran : gran < 2 ^ 8) :
    readSegment (gdtSetGate m gdt num base limit access gran) (gdt + 8 * num) =
      ⟨base, limit % 2 ^ 20, access % 32, access / 32 % 4, access / 128 % 2 = 1,
        gran / 64 % 2 = 1, gran / 128 % 2 = 1⟩ := by
  have halves : ∀ n : Nat, n &&& 0xFFFF = n % 65536 := fun n => Nat.and_two_pow_sub_one_eq_mod n 16
  have bytes : ∀ n : Nat, n &&& 0xFF = n % 256 := fun n => Nat.and_two_pow_sub_one_eq_mod n 8
  unfold readSegment load16 gdtSetGate
  dsimp only
  generalize entryAt : gdt + 8 * num = entry at room
  simp (disch := omega) only [load8_store8, load8_store16, if_neg, if_true, halves, bytes, nibbles,
    Nat.shiftRight_eq_div_pow]
  congr 1
  · omega
  · omega
  · omega
  · omega
  · rw [Nat.mod_eq_of_lt (b := 256) byteAccess]
  · congr 2; omega
  · congr 2; omega

theorem idtSetGate_elsewhere (m : Memory) {idt : Nat} {num : Fin 256} {base sel flags b : Nat}
    (room : idt + 2048 ≤ 2 ^ 32) (word : b < 2 ^ 32)
    (outside : b < idt + 8 * num ∨ idt + 8 * num + 8 ≤ b) :
    load8 (idtSetGate m idt num base sel flags) b = load8 m b := by
  have low := num.isLt
  unfold idtSetGate
  dsimp only
  simp (disch := omega) only [load8_store8, load8_store16, if_neg]

theorem idtSetGate_reads (m : Memory) {idt : Nat} (num : Fin 256) {base : Nat} (sel flags : Nat)
    (room : idt + 2048 ≤ 2 ^ 32) (wordBase : base < 2 ^ 32) (wordSel : sel < 2 ^ 16)
    (byteFlags : flags < 2 ^ 8) :
    readGate (idtSetGate m idt num base sel flags) (idt + 8 * num) =
      ⟨base, sel, flags % 32, flags / 32 % 4, flags / 128 % 2 = 1⟩ := by
  have low := num.isLt
  have halves : ∀ n : Nat, n &&& 0xFFFF = n % 65536 := fun n => Nat.and_two_pow_sub_one_eq_mod n 16
  unfold readGate load16 idtSetGate
  dsimp only
  generalize entryAt : idt + 8 * num.val = entry
  simp (disch := omega) only [load8_store8, load8_store16, if_neg, if_true, halves,
    Nat.shiftRight_eq_div_pow]
  congr 1
  · omega
  · omega
  · omega
  · omega
  · rw [Nat.mod_eq_of_lt (b := 256) byteFlags]

/-! ### The lines of isrs_install and irq_install -/

section Lines

variable {ι : Type} {idt : Nat} (room : idt + 2048 ≤ 2 ^ 32) (vector : ι → Fin 256) (stub : ι → Nat)
include room

theorem gates_elsewhere (is : List ι) (m : Memory) {b : Nat} (word : b < 2 ^ 32)
    (outside : ∀ i ∈ is, b < idt + 8 * vector i ∨ idt + 8 * vector i + 8 ≤ b) :
    load8 (is.foldl (fun m i => idtSetGate m idt (vector i) (stub i) 0x08 0x8E) m) b = load8 m b := by
  induction is generalizing m with
  | nil => rfl
  | cons i is ih =>
    rw [List.foldl_cons, ih _ fun j mem => outside j (List.mem_cons_of_mem i mem)]
    exact idtSetGate_elsewhere m room word (outside i List.mem_cons_self)

theorem gates_read (injective : Function.Injective vector) (words : ∀ i, stub i < 2 ^ 32)
    (is : List ι) (m : Memory) {i : ι} (mem : i ∈ is) :
    readGate (is.foldl (fun m i => idtSetGate m idt (vector i) (stub i) 0x08 0x8E) m)
      (idt + 8 * vector i) = ⟨stub i, 0x08, 14, 0, true⟩ := by
  induction is generalizing m with
  | nil => cases mem
  | cons j is ih =>
    rw [List.foldl_cons]
    by_cases later : i ∈ is
    · exact ih _ later
    · obtain rfl : i = j := (List.mem_cons.mp mem).resolve_right later
      have written := idtSetGate_reads m (vector i) 0x08 0x8E room (words i) (by decide)
        (by decide)
      refine (readGate_congr ?_).trans written
      intro k low
      have bound := (vector i).isLt
      apply gates_elsewhere room vector stub is _ (by omega)
      intro l inside
      have other : (vector i).val ≠ (vector l).val := fun same =>
        later (injective (Fin.ext same) ▸ inside)
      omega

end Lines

theorem remapped_waiting : remapped.waiting = ∅ := by decide

theorem Remapped.raiseAll {p : Pair} (h : Remapped p) {lines : List (Fin 16)} (devices : 2 ∉ lines) :
    Remapped (lines.foldl Pair.raise p) ∧
    ∀ n, n ∈ (lines.foldl Pair.raise p).waiting ↔ n ∈ lines ∨ n ∈ p.waiting := by
  induction lines generalizing p with
  | nil => exact ⟨h, fun n => by simp⟩
  | cons m lines ih =>
    rw [List.mem_cons, not_or] at devices
    obtain ⟨inv, waiting⟩ := ih (h.raise (Ne.symm devices.1)) devices.2
    refine ⟨inv, fun n => ?_⟩
    rw [List.foldl_cons, waiting, Pair.raise_waiting, Finset.mem_insert, List.mem_cons]
    tauto

/-! ### All of kernel_main's tables -/

/-- Two objects of the kernel, one behind the other. -/
def Apart (a n b k : Nat) : Prop := a + n ≤ b ∨ b + k ≤ a

instance (a n b k : Nat) : Decidable (Apart a n b k) := inferInstanceAs (Decidable (_ ∨ _))

structure TableLinks.Placed (links : TableLinks) : Prop where
  gdt : links.gdt + 24 ≤ 2 ^ 32
  gp : links.gp + 6 ≤ 2 ^ 32
  idt : links.idt + 2048 ≤ 2 ^ 32
  idtp : links.idtp + 6 ≤ 2 ^ 32
  gdtGp : Apart links.gdt 24 links.gp 6
  gdtIdt : Apart links.gdt 24 links.idt 2048
  gdtIdtp : Apart links.gdt 24 links.idtp 6
  idtIdtp : Apart links.idt 2048 links.idtp 6

/-- Outside the four objects. -/
def TableLinks.Elsewhere (links : TableLinks) (a : Nat) : Prop :=
  Apart a 1 links.gdt 24 ∧ Apart a 1 links.gp 6 ∧ Apart a 1 links.idt 2048 ∧ Apart a 1 links.idtp 6

/-- Where each vector is to lead. -/
def StubLinks.of (stubs : StubLinks) (vector : Nat) : Option Nat :=
  if isr : vector < 32 then some (stubs.isr ⟨vector, isr⟩)
  else if irq : vector < 48 then some (stubs.irq ⟨vector - 32, by omega⟩)
  else none

structure StubLinks.InWords (stubs : StubLinks) : Prop where
  isr : ∀ i, stubs.isr i < 2 ^ 32
  irq : ∀ i, stubs.irq i < 2 ^ 32

def flatCode : Segment := ⟨0, 0xFFFFF, 26, 0, true, true, true⟩

theorem flatCode_last : flatCode.last = 2 ^ 32 - 1 := rfl

def flatData : Segment := ⟨0, 0xFFFFF, 18, 0, true, true, true⟩

section Install

variable {links : TableLinks} (placed : links.Placed)
include placed

theorem gdtInstall_gdtr (s : Machine) : (gdtInstall links s).gdtr = ⟨23, links.gdt⟩ := by
  obtain ⟨gdt, gp, _, _, apart, _, _, _⟩ := placed
  unfold Apart at apart
  unfold gdtInstall gdtFlush
  dsimp only
  have stored := readTableReg_stored s.mem (8 * 3 - 1) links.gdt gp (by decide)
    (by omega)
  refine (readTableReg_congr gp ?_).trans stored
  intro k low
  rw [gdtSetGate_elsewhere _ (by omega) (by omega) (by omega),
    gdtSetGate_elsewhere _ (by omega) (by omega) (by omega),
    gdtSetGate_elsewhere _ (by omega) (by omega) (by omega)]

/-- The code entry is written before the one behind it. -/
theorem gdtInstall_segments (s : Machine) :
    readSegment (gdtInstall links s).mem (links.gdt + 8) = flatCode ∧
    readSegment (gdtInstall links s).mem (links.gdt + 16) = flatData := by
  have room := placed.gdt
  unfold gdtInstall gdtFlush
  dsimp only
  constructor
  · rw [readSegment_congr (fun k low => gdtSetGate_elsewhere _ (by omega) (by omega) (by omega))]
    exact gdtSetGate_reads _ 1 (by omega) (by decide) (by decide) (by decide)
  · exact gdtSetGate_reads _ 2 (by omega) (by decide) (by decide) (by decide)

theorem gdtInstall_elsewhere (s : Machine) {a : Nat} (word : a < 2 ^ 32) (outside : links.Elsewhere a) :
    load8 (gdtInstall links s).mem a = load8 s.mem a := by
  obtain ⟨gdt, gp, _, _, _, _, _, _⟩ := placed
  obtain ⟨table, pointer, _, _⟩ := outside
  unfold Apart at table pointer
  unfold gdtInstall gdtFlush
  dsimp only
  rw [gdtSetGate_elsewhere _ (by omega) word (by omega),
    gdtSetGate_elsewhere _ (by omega) word (by omega),
    gdtSetGate_elsewhere _ (by omega) word (by omega), load8_store32 _ _ _ _ word (by omega) (by omega),
    load8_store16 _ _ _ _ (by omega) word, if_neg (by omega), if_neg (by omega)]

theorem idtInstall_bytes (s : Machine) {a : Nat} (word : a < 2 ^ 32)
    (outside : Apart a 1 links.idtp 6) : load8 (idtInstall links s).mem a =
      if links.idt ≤ a ∧ a < links.idt + 2048 then 0 else load8 s.mem a := by
  obtain ⟨_, _, idt, idtp, _, _, _, _⟩ := placed
  unfold Apart at outside
  unfold idtInstall idtLoad
  dsimp only
  rw [load8, wrap_eq word, memset_apply _ _ _ _ idt]
  split
  · rfl
  · have before : load8 (store32 (store16 s.mem links.idtp (8 * 256 - 1)) (links.idtp + 2) links.idt) a =
        load8 s.mem a := by
      rw [load8_store32 _ _ _ _ word (by omega) (by omega), load8_store16 _ _ _ _ (by omega) word,
        if_neg (by omega), if_neg (by omega)]
    rw [← before, load8, wrap_eq word]

theorem idtInstall_idtr (s : Machine) : (idtInstall links s).idtr = ⟨2047, links.idt⟩ := by
  obtain ⟨_, _, idt, idtp, _, _, _, apart⟩ := placed
  unfold Apart at apart
  unfold idtInstall idtLoad
  dsimp only
  have stored := readTableReg_stored s.mem (8 * 256 - 1) links.idt idtp (by decide)
    (by omega)
  refine (readTableReg_congr idtp ?_).trans stored
  intro k low
  rw [load8, wrap_eq (by omega), memset_apply _ _ _ _ idt, if_neg (by omega), load8, wrap_eq (by omega)]

/-- Both runs of lines stay inside the interrupt table. -/
theorem installTables_elsewhere (stubs : StubLinks) (s : Machine) {a : Nat} (word : a < 2 ^ 32)
    (outside : Apart a 1 links.idt 2048) : load8 (installTables links stubs s).1.mem a =
      load8 (idtInstall links (gdtInstall links s)).mem a := by
  unfold Apart at outside
  unfold installTables irqInstall isrsInstall
  dsimp only
  rw [gates_elsewhere placed.idt (fun i : Fin 16 => ⟨32 + i, by omega⟩) stubs.irq _ _ word,
    gates_elsewhere placed.idt (fun i : Fin 32 => ⟨i, by omega⟩) stubs.isr _ _ word]
  · intro i _
    dsimp only
    omega
  · intro i _
    dsimp only
    omega

theorem installTables_keeps (stubs : StubLinks) (s : Machine) {a : Nat} (word : a < 2 ^ 32)
    (outside : links.Elsewhere a) : load8 (installTables links stubs s).1.mem a = load8 s.mem a := by
  obtain ⟨table, pointer, gates, gatePointer⟩ := outside
  rw [installTables_elsewhere placed stubs s word gates, idtInstall_bytes placed _ word gatePointer,
    if_neg (by unfold Apart at gates; omega),
    gdtInstall_elsewhere placed s word ⟨table, pointer, gates, gatePointer⟩]

theorem installTables_segment (stubs : StubLinks) (s : Machine) :
    (installTables links stubs s).1.segment 0x08 = some flatCode ∧
    (installTables links stubs s).1.segment 0x10 = some flatData := by
  have gdt := placed.gdt
  have gdtIdt := placed.gdtIdt
  have gdtIdtp := placed.gdtIdtp
  unfold Apart at gdtIdt gdtIdtp
  have gdtr : (installTables links stubs s).1.gdtr = ⟨23, links.gdt⟩ := gdtInstall_gdtr placed s
  have kept : ∀ k, k < 24 → load8 (installTables links stubs s).1.mem (links.gdt + k) =
      load8 (gdtInstall links s).mem (links.gdt + k) := by
    intro k low
    rw [installTables_elsewhere placed stubs s (by omega) (by unfold Apart; omega),
      idtInstall_bytes placed _ (by omega) (by unfold Apart; omega), if_neg (by omega)]
  obtain ⟨code, data⟩ := gdtInstall_segments placed s
  have entry : ∀ i, i < 3 → readSegment (installTables links stubs s).1.mem (links.gdt + 8 * i) =
      readSegment (gdtInstall links s).mem (links.gdt + 8 * i) := by
    intro i inside
    apply readSegment_congr
    intro k low
    rw [Nat.add_assoc]
    exact kept (8 * i + k) (by omega)
  constructor
  · exact (Machine.segment_eq gdtr (i := 1) (by decide) (by decide)).trans
      (congrArg some ((entry 1 (by decide)).trans code))
  · exact (Machine.segment_eq gdtr (i := 2) (by decide) (by decide)).trans
      (congrArg some ((entry 2 (by decide)).trans data))

theorem installTables_irq (stubs : StubLinks) (words : stubs.InWords) (s : Machine) (n : Fin 16) :
    readGate (installTables links stubs s).1.mem (links.idt + 8 * (32 + n)) =
      ⟨stubs.irq n, 0x08, 14, 0, true⟩ :=
  gates_read placed.idt (fun i : Fin 16 => ⟨32 + i, by omega⟩) stubs.irq
    (fun i j same => Fin.ext (by simpa using same)) words.irq _ _ (List.mem_finRange n)

/-- irq_install's lines are behind those of isrs_install. -/
theorem installTables_isr (stubs : StubLinks) (words : stubs.InWords) (s : Machine) (n : Fin 32) :
    readGate (installTables links stubs s).1.mem (links.idt + 8 * n) =
      ⟨stubs.isr n, 0x08, 14, 0, true⟩ := by
  have idt := placed.idt
  have written := gates_read placed.idt (fun i : Fin 32 => ⟨i, by omega⟩) stubs.isr
    (fun i j same => Fin.ext (by simpa using same)) words.isr (List.finRange 32)
    (idtInstall links (gdtInstall links s)).mem (List.mem_finRange n)
  refine (readGate_congr ?_).trans written
  intro k low
  apply gates_elsewhere placed.idt (fun i : Fin 16 => ⟨32 + i, by omega⟩) stubs.irq _ _ (by omega)
  intro i _
  dsimp only
  omega

/-- The rest is what memset has left. -/
theorem installTables_rest (stubs : StubLinks) (s : Machine) {v : Nat} (low : v < 256) (high : 48 ≤ v) :
    (readGate (installTables links stubs s).1.mem (links.idt + 8 * v)).present = false := by
  have idt := placed.idt
  have apart := placed.idtIdtp
  unfold Apart at apart
  have flags : load8 (installTables links stubs s).1.mem (links.idt + 8 * v + 5) = 0 := by
    unfold installTables irqInstall isrsInstall
    dsimp only
    rw [gates_elsewhere placed.idt (fun i : Fin 16 => ⟨32 + i, by omega⟩) stubs.irq _ _ (by omega),
      gates_elsewhere placed.idt (fun i : Fin 32 => ⟨i, by omega⟩) stubs.isr _ _ (by omega),
      idtInstall_bytes placed _ (by omega) (by unfold Apart; omega), if_pos (by omega)]
    · intro i _
      dsimp only
      omega
    · intro i _
      dsimp only
      omega
  unfold readGate
  dsimp only
  rw [flags]
  rfl

/-- The gates of all 256 vectors. -/
theorem installTables_gate (stubs : StubLinks) (words : stubs.InWords) (s : Machine) {v : Nat}
    (low : v < 256) : ∃ g, (installTables links stubs s).1.gate v = some g ∧
      (stubs.of v = none ∧ g.present = false ∨
        ∃ stub, stubs.of v = some stub ∧ stub < 2 ^ 32 ∧ g = ⟨stub, 0x08, 14, 0, true⟩) := by
  have idtr : (installTables links stubs s).1.idtr = ⟨2047, links.idt⟩ :=
    idtInstall_idtr placed (gdtInstall links s)
  refine ⟨_, (Machine.gate_eq idtr v).trans (if_pos (by omega)), ?_⟩
  unfold StubLinks.of
  by_cases isr : v < 32
  · rw [dif_pos isr]
    exact .inr ⟨_, rfl, words.isr _, installTables_isr placed stubs words s ⟨v, isr⟩⟩
  · rw [dif_neg isr]
    by_cases irq : v < 48
    · rw [dif_pos irq]
      have vector : 32 + (v - 32) = v := by omega
      have written := installTables_irq placed stubs words s ⟨v - 32, by omega⟩
      dsimp only at written
      rw [vector] at written
      exact .inr ⟨_, rfl, words.irq _, written⟩
    · rw [dif_neg irq]
      exact .inl ⟨rfl, installTables_rest placed stubs s low (by omega)⟩

/-- The processor goes where the tables say, through a code segment that has it all. -/
theorem installTables_entry (stubs : StubLinks) (words : stubs.InWords) (s : Machine) (v : Nat) :
    (installTables links stubs s).1.entry v = stubs.of v := by
  unfold Machine.entry
  by_cases low : v < 256
  · obtain ⟨g, gate, ⟨no, absent⟩ | ⟨stub, leads, word, rfl⟩⟩ := installTables_gate placed stubs words s low
    · rw [gate, no, Option.bind_some, absent, if_neg (by simp)]
    · rw [gate, leads, Option.bind_some, if_pos ⟨rfl, rfl⟩,
        (installTables_segment placed stubs s).1, Option.bind_some, if_pos, flatCode, Nat.zero_add,
        wrap_eq word]
      refine ⟨rfl, rfl, ?_⟩
      rw [flatCode_last]
      exact Nat.le_sub_one_of_lt word
  · have idtr : (installTables links stubs s).1.idtr = ⟨2047, links.idt⟩ :=
      idtInstall_idtr placed (gdtInstall links s)
    have none_ : stubs.of v = none := by
      unfold StubLinks.of
      rw [dif_neg (by omega), dif_neg (by omega)]
    rw [Machine.gate_eq idtr, if_neg (by omega), none_, Option.bind_none]

/-- From any machine: each vector leads to its stub and the rest nowhere, code and data
are all of the address space, and nothing else in memory has changed. -/
theorem tables_installed (stubs : StubLinks) (words : stubs.InWords) (s : Machine) :
    let t := (installTables links stubs s).1
    (∀ v, t.entry v = stubs.of v) ∧
    (∃ d, t.segment t.cs = some d ∧ d.code ∧ d.present ∧ d.dpl = 0 ∧ d.base = 0 ∧ d.last = 2 ^ 32 - 1) ∧
    (∀ selector ∈ [t.ss, t.ds, t.es, t.fs, t.gs], ∃ d, t.segment selector = some d ∧
      d.data ∧ d.present ∧ d.dpl = 0 ∧ d.base = 0 ∧ d.last = 2 ^ 32 - 1) ∧
    ∀ a, a < 2 ^ 32 → links.Elsewhere a → load8 t.mem a = load8 s.mem a := by
  obtain ⟨code, data⟩ := installTables_segment placed stubs s
  refine ⟨installTables_entry placed stubs words s, ⟨flatCode, code, rfl, rfl, rfl, rfl, rfl⟩, ?_, ?_⟩
  · intro selector mem
    have same : selector = 0x10 := by simpa [installTables, irqInstall, isrsInstall, idtInstall, idtLoad,
      gdtInstall, gdtFlush] using mem
    exact ⟨flatData, same ▸ data, by decide, rfl, rfl, rfl, rfl⟩
  · intro a word outside
    exact installTables_keeps placed stubs s word outside

/-- Whatever the controllers and the machine were before, and in whatever order devices
pull these lines: the processor enters the stub of the one of the highest priority. -/
theorem lines_lead (stubs : StubLinks) (words : stubs.InWords) (s : Machine) (p : Pair)
    (lines : List (Fin 16)) (devices : 2 ∉ lines) (some_ : lines ≠ []) :
    ∃ q, p.outports (portWrites (installTables links stubs s).2) = some q ∧
    ∃ n ∈ lines, (∀ m ∈ lines, Pair.rank n ≤ Pair.rank m) ∧ ∃ q',
      (lines.foldl Pair.raise q).acknowledge = some (q', 32 + n.val) ∧
      (installTables links stubs s).1.entry (32 + n.val) = some (stubs.irq n) := by
  obtain ⟨inv, waiting⟩ := remapped_idle.raiseAll devices
  refine ⟨remapped, irqRemap_programs p, ?_⟩
  rcases inv.idle.acknowledge with ⟨_, empty⟩ | ⟨n, waits, first, given⟩
  · obtain ⟨n, mem⟩ := List.exists_mem_of_ne_nil lines some_
    exact absurd ((waiting n).mpr (.inl mem)) (by simp [empty])
  · have known : ∀ m, m ∈ (lines.foldl Pair.raise remapped).waiting ↔ m ∈ lines := by
      intro m
      rw [waiting, remapped_waiting, or_iff_left (Finset.notMem_empty m)]
    refine ⟨n, (known n).mp waits, fun m mem => first m ((known m).mpr mem),
      (lines.foldl Pair.raise remapped).taken n, ?_, ?_⟩
    · rw [given, inv.vector]
    · rw [installTables_entry placed stubs words s]
      unfold StubLinks.of
      rw [dif_neg (by omega), dif_pos (by omega)]
      congr 2
      exact Fin.ext (Nat.add_sub_cancel_left 32 n)

end Install

def someTables : TableLinks := ⟨0x106000, 0x106018, 0x106020, 0x106820⟩

theorem someTables_placed : someTables.Placed := by
  constructor <;> decide

def someStubs : StubLinks := ⟨fun i => 0x101000 + 16 * i, fun i => 0x101200 + 16 * i⟩

theorem someStubs_words : someStubs.InWords := by
  constructor <;> (intro i; unfold someStubs; dsimp only; omega)

/-- Before gdt_install, whose memory may hold anything. -/
def bootMachine : Machine :=
  ⟨fun a => BitVec.ofNat 8 (7 * a), ⟨0x1F, 0x9000⟩, ⟨0x3FF, 0⟩, 0x10, 0x18, 0x18, 0x18, 0x18, 0x18⟩

theorem boot_tables :
    let t := (installTables someTables someStubs bootMachine).1
    (∀ v, t.entry v = someStubs.of v) ∧
    (∃ d, t.segment t.cs = some d ∧ d.code ∧ d.present ∧ d.dpl = 0 ∧ d.base = 0 ∧ d.last = 2 ^ 32 - 1) ∧
    (∀ selector ∈ [t.ss, t.ds, t.es, t.fs, t.gs], ∃ d, t.segment selector = some d ∧
      d.data ∧ d.present ∧ d.dpl = 0 ∧ d.base = 0 ∧ d.last = 2 ^ 32 - 1) ∧
    ∀ a, a < 2 ^ 32 → someTables.Elsewhere a → load8 t.mem a = load8 bootMachine.mem a :=
  tables_installed someTables_placed someStubs someStubs_words bootMachine

/-- The clock of the slave goes before the disk of the master. -/
theorem boot_lines : ∃ q, remapped.outports (portWrites (installTables someTables someStubs bootMachine).2) =
      some q ∧
    ∃ n ∈ [6, 8, 14], (∀ m ∈ [6, 8, 14], Pair.rank n ≤ Pair.rank m) ∧ ∃ q',
      ([6, 8, 14].foldl Pair.raise q).acknowledge = some (q', 32 + n.val) ∧
      (installTables someTables someStubs bootMachine).1.entry (32 + n.val) = some (someStubs.irq n) :=
  lines_lead someTables_placed someStubs someStubs_words bootMachine remapped [6, 8, 14] (by decide)
    (by decide)

end RiseOS
