import RiseOS.Interrupts.Context
import RiseOS.Serial.Sinks

/-! From an exception to the serial line: which text fault_handler prints for it. -/
namespace RiseOS
open Words X86 Strings

def chars (text : String) : List (BitVec 8) := text.toList.map ch

/-- The texts of fault_handler lie where the linker has put them. -/
structure FaultTexts (m : Memory) (table halted : Nat) : Prop where
  names : ∀ i name, exceptionMessages[i]? = some name →
    CString (window m (load32 m (wrap (table + 4 * i)))) (chars name)
  halted : CString (window m halted) (chars systemHalted)

/-! ### A text without conversions -/

theorem literals_text (m : Memory) (args : Nat → Nat) (bs : List (BitVec 8)) (k : Nat) :
    itemsText m args (bs.map .literal) k = bs := by
  induction bs with
  | nil => rfl
  | cons c rest ih => rw [List.map_cons, itemsText, ih]

theorem helper_literals {m : Memory} {format : Nat} (args : Nat → Nat) {bs : List (BitVec 8)}
    (s : Sprintf) (plain : ∀ c ∈ bs, c ≠ ch '%')
    (string : CString (window m (format + s.format)) bs) :
    HelperWrites m format args s bs (bs.map .literal) := by
  induction bs generalizing s with
  | nil => exact helperWrites_nil string.nul
  | cons c rest ih =>
    exact helperWrites_literal string (plain c List.mem_cons_self) fun u =>
      ih u fun d member => plain d (List.mem_cons_of_mem c member)

theorem qemuPrintf_literals {m : Memory} {s : Nat} {bs : List (BitVec 8)}
    (plain : ∀ c ∈ bs, c ≠ ch '%') (string : CString (window m s) bs) (args : Nat → Nat) {fuel : Nat}
    (enough : bs.length < fuel) : qemuPrintf fuel m s args = some bs := by
  obtain ⟨t, ran, _, emits⟩ := helper_literals args ⟨none, 0, [], fun _ => 0#8, 0, 0⟩ plain string
  rw [literals_text] at emits
  have text : t.chars = bs := (emits fun some => absurd some Bool.false_ne_true).chars
  rw [List.length_map] at ran
  rw [qemuPrintf, vsprintf, helper_more_fuel m s args enough _ t ran, Option.map_some, text]

/-- Whatever the fuel, if it was enough. -/
theorem qemuPrintf_only {m : Memory} {s : Nat} {bs text : List (BitVec 8)}
    (plain : ∀ c ∈ bs, c ≠ ch '%') (string : CString (window m s) bs) {args : Nat → Nat} {fuel : Nat}
    (ran : qemuPrintf fuel m s args = some text) : text = bs := by
  have whole := qemuPrintf_literals plain string args (Nat.lt_succ_self bs.length)
  obtain ⟨t, one, rfl⟩ := Option.map_eq_some_iff.mp ran
  obtain ⟨u, two, rfl⟩ := Option.map_eq_some_iff.mp whole
  rw [vsprintf_unique one two]

/-- A short ASCII text without a % in it. -/
def PlainText (text : String) : Prop :=
  (text.toList.all fun c => c ≠ '%' ∧ 0 < c.toNat ∧ c.toNat < 128) = true ∧ text.toList.length < 64

instance : DecidablePred PlainText := fun _ => inferInstanceAs (Decidable (_ ∧ _))

theorem names_plain : ∀ name ∈ exceptionMessages, PlainText name := by
  decide +kernel

theorem halted_plain : PlainText systemHalted := by
  decide +kernel

theorem ch_back {c : Char} (ascii : c.toNat < 128) : Char.ofNat (ch c).toNat = c := by
  rw [ch, BitVec.toNat_ofNat, Nat.mod_eq_of_lt (by omega), Char.ofNat_toNat]

section PlainText

variable {text : String} (h : PlainText text)
include h

theorem PlainText.ascii {c : Char} (member : c ∈ text.toList) : c ≠ '%' ∧ 0 < c.toNat ∧ c.toNat < 128 :=
  of_decide_eq_true (List.all_eq_true.mp h.1 c member)

theorem PlainText.back : (chars text).map (fun c => Char.ofNat c.toNat) = text.toList := by
  rw [chars, List.map_map]
  exact (List.map_congr_left fun c member => ch_back (h.ascii member).2.2).trans (List.map_id _)

theorem PlainText.percent : ∀ c ∈ chars text, c ≠ ch '%' := by
  intro b member same
  obtain ⟨c, inside, rfl⟩ := List.mem_map.mp member
  obtain ⟨other, _, ascii⟩ := h.ascii inside
  exact other ((ch_back ascii).symm.trans (same ▸ ch_back (by decide)))

theorem PlainText.nonzero : ∀ c ∈ chars text, c ≠ 0#8 := by
  intro b member zero
  obtain ⟨c, inside, rfl⟩ := List.mem_map.mp member
  obtain ⟨_, positive, ascii⟩ := h.ascii inside
  have value := congrArg BitVec.toNat zero
  rw [ch, BitVec.toNat_ofNat, Nat.mod_eq_of_lt (by omega)] at value
  exact positive.ne' value

theorem PlainText.short : (chars text).length < 64 := by
  rw [chars, List.length_map]
  exact h.2

omit h in
theorem chars_injective {a b : String} (one : PlainText a) (two : PlainText b)
    (same : chars a = chars b) : a = b := by
  have texts := one.back
  rw [same, two.back] at texts
  exact (String.toList_inj.mp texts).symm

end PlainText

/-! ### The number that the stub pushes -/

/-- The words on the stack when the stub of a vector comes to push its number. -/
def wordsBelowNumber (c : Cpu) (vector : Fin 48) (errorCode : Nat) : List Nat :=
  let trapped := [c.eflags, c.cs, c.eip] ++ (if pushesErrorCode vector then [errorCode] else [])
  if pushesErrorCode vector = true ∧ vector ≠ 17 then trapped
  else trapped ++ [load32 (pushAll c.mem (c.reg .esp) trapped) 0]

/-- The word that lies there at the address `vector`. -/
def stubNumber (c : Cpu) (vector : Fin 48) (errorCode : Nat) : Nat :=
  load32 (pushAll c.mem (c.reg .esp) (wordsBelowNumber c vector errorCode)) vector

theorem stub_pushed (c : Processor) (vector : Fin 48) (errorCode : Nat) :
    Pushed c.toCpu (wordsBelowNumber c.toCpu vector errorCode ++ [stubNumber c.toCpu vector errorCode])
      ((c.toCpu.trap (if pushesErrorCode vector then some errorCode else none)).run
        ((isrGates ++ irqGates).getD vector [])) := by
  have start := trap_pushed (c.reg_lt .esp) (if pushesErrorCode vector then some errorCode else none)
  generalize c.toCpu.trap _ = t at start ⊢
  have trapped : (if pushesErrorCode vector then some errorCode else none).toList =
      if pushesErrorCode vector then [errorCode] else [] := by
    split <;> rfl
  have few : (if pushesErrorCode vector then [errorCode] else []).length ≤ 1 := by
    split <;> simp
  rw [trapped] at start
  rw [gates_eq]
  by_cases one : pushesErrorCode vector = true ∧ vector ≠ 17
  · have number : stubNumber c.toCpu vector errorCode = load32 (t.exec .cli).mem vector := by
      rw [stubNumber, wordsBelowNumber, if_pos one, start.cli.mem]
    have words : wordsBelowNumber c.toCpu vector errorCode =
        [c.eflags, c.cs, c.eip] ++ if pushesErrorCode vector then [errorCode] else [] := if_pos one
    rw [if_pos one, words, number]
    exact start.cli.push _ (by simp; omega)
  · have error := start.cli.push (load32 (t.exec .cli).mem 0) (by simp; omega)
    have words : wordsBelowNumber c.toCpu vector errorCode =
        ([c.eflags, c.cs, c.eip] ++ if pushesErrorCode vector then [errorCode] else []) ++
          [load32 (t.exec .cli).mem 0] := by
      rw [wordsBelowNumber, if_neg one, start.cli.mem]
    rw [← words] at error
    have number : stubNumber c.toCpu vector errorCode =
        load32 ((t.exec .cli).exec (.pushMem 0)).mem vector := by
      rw [stubNumber, ← error.mem]
      rfl
    rw [if_neg one, number]
    exact error.push _ (by simp [words]; omega)

theorem enterGate_number (links : GateLinks) (c : Processor) (vector : Fin 48) (errorCode : Nat) :
    regsField (enterGate links c.toCpu vector errorCode).1.mem
      (irqArgument (enterGate links c.toCpu vector errorCode).1) .intNo =
      stubNumber c.toCpu vector errorCode := by
  obtain ⟨handler, behind, code⟩ := exists_common links vector
  have pushed := stub_pushed c vector errorCode
  generalize below : wordsBelowNumber c.toCpu vector errorCode = words at pushed
  have entered : enterGate links c.toCpu vector errorCode =
      ((c.toCpu.trap (if pushesErrorCode vector then some errorCode else none)).run
        ((isrGates ++ irqGates).getD vector [])).runToCall behind (irqCommonStub handler) := by
    unfold enterGate
    rw [code, gates_eq]
    dsimp only
    generalize c.toCpu.trap _ = t
    by_cases one : pushesErrorCode vector = true ∧ vector ≠ 17
    · rw [if_pos one]
      exact runToCall_isrErrorStub t vector behind _
    · rw [if_neg one]
      exact runToCall_isrStub t vector behind _
  rw [entered]
  generalize Cpu.run _ _ = t at pushed ⊢
  have few : words.length ≤ 5 := by
    rw [← below]
    unfold wordsBelowNumber
    split <;> split <;> simp
  have here : wrap (t.reg .esp + 4 * (RegsField.intNo.index - 12)) =
      wsub (c.reg .esp) (4 * (words.length + 1)) := by
    have first : 4 * (RegsField.intNo.index - 12) = 0 := rfl
    rw [first, Nat.add_zero, pushed.esp, List.length_append, List.length_singleton]
    exact wrap_eq (n := wsub _ _) (wrap_lt _)
  rw [common_argument, upper_field t handler behind (by decide) (by decide), here, pushed.mem]
  exact load32_pushed _ _ _ _ _ (by simp) (load32_lt _ _) (by simp; omega)

/-! ### The report -/

def reportText (name : String) : List (BitVec 8) := chars name ++ chars systemHalted

theorem names_differ : ∀ i, i < 32 → ∀ j, j < 32 →
    (exceptionMessages.getD i "" = exceptionMessages.getD j "" ↔ i = j ∨ 19 ≤ i ∧ 19 ≤ j) := by
  decide +kernel

theorem reports_differ {i j : Nat} (one : i < 32) (two : j < 32) :
    reportText (exceptionMessages.getD i "") = reportText (exceptionMessages.getD j "") ↔
      i = j ∨ 19 ≤ i ∧ 19 ≤ j := by
  have member : ∀ {k : Nat}, k < 32 → exceptionMessages.getD k "" ∈ exceptionMessages := by
    intro k inside
    rw [List.getD_eq_getElem _ _ inside]
    exact List.getElem_mem _
  rw [reportText, reportText, List.append_cancel_right_eq, ← names_differ i one j two]
  exact ⟨chars_injective (names_plain _ (member one)) (names_plain _ (member two)), congrArg chars⟩

section Report

variable (links : GateLinks) (vector : Fin 48) (errorCode table halted : Nat) (args : Nat → Nat)

/-- What the exception `vector` leads to, if no loop of fault_handler outlasts memory. -/
def FaultEnds (c : Cpu) (fault : Fault) : Prop :=
  let entry := (enterGate links c vector errorCode).1
  ∃ fuel, faultHandler fuel entry.mem table halted (irqArgument entry) args = some fault

variable {links vector errorCode table halted args} {c : Processor}
variable (texts : FaultTexts (enterGate links c.toCpu vector errorCode).1.mem table halted)
include texts

theorem faultEnds_named {name : String}
    (named : exceptionMessages[stubNumber c.toCpu vector errorCode]? = some name) (fault : Fault) :
    FaultEnds links vector errorCode table halted args c.toCpu fault ↔
      fault = .halted (reportText name) := by
  have number := enterGate_number links c vector errorCode
  have inside : stubNumber c.toCpu vector errorCode < 32 := (List.getElem?_eq_some_iff.mp named).1
  have plain := names_plain name (List.mem_of_getElem? named)
  have string := texts.names _ name named
  rw [← number] at inside string
  constructor
  · rintro ⟨fuel, ran⟩
    rw [faultHandler, if_pos inside] at ran
    obtain ⟨first, one, rest⟩ := Option.bind_eq_some_iff.mp ran
    obtain ⟨second, two, rfl⟩ := Option.map_eq_some_iff.mp rest
    rw [qemuPrintf_only plain.percent string one, qemuPrintf_only halted_plain.percent texts.halted two]
    rfl
  · rintro rfl
    refine ⟨64, ?_⟩
    rw [faultHandler, if_pos inside, qemuPrintf_literals plain.percent string args plain.short,
      Option.bind_some, qemuPrintf_literals halted_plain.percent texts.halted args halted_plain.short,
      Option.map_some]
    rfl

omit texts in
theorem faultEnds_unnamed (beyond : 32 ≤ stubNumber c.toCpu vector errorCode) (fault : Fault) :
    FaultEnds links vector errorCode table halted args c.toCpu fault ↔ fault = .returned := by
  have number := enterGate_number links c vector errorCode
  rw [← number] at beyond
  have ran (fuel : Nat) : faultHandler fuel (enterGate links c.toCpu vector errorCode).1.mem table halted
      (irqArgument (enterGate links c.toCpu vector errorCode).1) args = some .returned :=
    if_neg (Nat.not_lt.mpr beyond)
  constructor
  · rintro ⟨fuel, ended⟩
    exact (Option.some.inj ((ran fuel).symm.trans ended)).symm
  · rintro rfl
    exact ⟨0, ran 0⟩

end Report

/-- An exception is reported under its own name exactly when the word at the address of its
number holds that number; the names from 19 on are one. Where that word is no
exception's number the handler goes back without a word. -/
theorem fault_reported_iff (links : GateLinks) (c : Processor) (vector : Fin 48)
    (exception : vector.val < 32) (errorCode table halted : Nat) (args : Nat → Nat)
    (texts : FaultTexts (enterGate links c.toCpu vector errorCode).1.mem table halted) :
    (FaultEnds links vector errorCode table halted args c.toCpu
        (.halted (reportText (exceptionMessages.getD vector ""))) ↔
      stubNumber c.toCpu vector errorCode = vector ∨
        19 ≤ vector.val ∧ 19 ≤ stubNumber c.toCpu vector errorCode ∧
          stubNumber c.toCpu vector errorCode < 32) ∧
    (FaultEnds links vector errorCode table halted args c.toCpu .returned ↔
      32 ≤ stubNumber c.toCpu vector errorCode) := by
  by_cases inside : stubNumber c.toCpu vector errorCode < 32
  · have named : exceptionMessages[stubNumber c.toCpu vector errorCode]? =
        some (exceptionMessages.getD (stubNumber c.toCpu vector errorCode) "") := by
      rw [List.getD_eq_getElem _ _ inside]
      exact List.getElem?_eq_getElem inside
    rw [faultEnds_named texts named, faultEnds_named texts named, Fault.halted.injEq,
      reports_differ exception inside]
    refine ⟨by omega, iff_of_false nofun (by omega)⟩
  · rw [faultEnds_unnamed (Nat.not_lt.mp inside), faultEnds_unnamed (Nat.not_lt.mp inside)]
    exact ⟨iff_of_false nofun (by omega), iff_of_true rfl (Nat.not_lt.mp inside)⟩

/-- The stubs of an exception write below the stack pointer only. -/
theorem enterGate_above (links : GateLinks) (c : Processor) (vector : Fin 48) (errorCode : Nat) {a : Nat}
    (room : 80 ≤ c.reg .esp) (above : c.reg .esp ≤ a) (word : a < 2 ^ 32) :
    (enterGate links c.toCpu vector errorCode).1.mem a = c.mem a := by
  obtain ⟨t, handler, behind, extra, entered, pushed, length⟩ := enterGate_pushed links c vector errorCode
  have few : extra.length ≤ 3 := by
    rw [length]
    split <;> decide
  have words : ([c.eflags, c.cs, c.eip] ++ extra).length = extra.length + 3 := by simp
  have esp : t.reg .esp = c.reg .esp - 4 * (extra.length + 3) := by
    rw [pushed.esp, words, wsub_eq (c.reg_lt .esp) (by omega)]
  rw [entered, (common_entry t handler behind).1, pushAll_above _ _ _ (by omega) word, pushed.mem,
    pushAll_above _ _ (by omega) above word]
  simp [savedWords]
  omega

def faultTextsAt (i : Nat) : String := if i = 32 then systemHalted else exceptionMessages.getD i ""

theorem faultTextsAt_plain {i : Nat} (inside : i < 33) : PlainText (faultTextsAt i) := by
  unfold faultTextsAt
  split
  · exact halted_plain
  · rename_i name
    rw [List.getD_eq_getElem _ _ (show i < 32 by omega)]
    exact names_plain _ (List.getElem_mem _)

/-- The texts from 2M on, the table from 3M on, and a 14 at the address 14. -/
def faultMemory : Memory := fun a =>
  if a = 14 then 14#8
  else if 0x300000 ≤ a then BitVec.ofNat 8 ((0x200000 + 64 * ((a - 0x300000) / 4)) / 256 ^ (a % 4))
  else if 0x200000 ≤ a then (chars (faultTextsAt ((a - 0x200000) / 64))).getD ((a - 0x200000) % 64) 0#8
  else 0#8

theorem faultMemory_texts {m : Memory} (same : ∀ a, 0x200000 ≤ a → a < 2 ^ 32 → m a = faultMemory a) :
    FaultTexts m 0x300000 (0x200000 + 64 * 32) := by
  have string : ∀ i, i < 33 → CString (window m (0x200000 + 64 * i)) (chars (faultTextsAt i)) := by
    intro i inside
    have plain := faultTextsAt_plain inside
    have byte : ∀ k, k < 64 → window m (0x200000 + 64 * i) k = (chars (faultTextsAt i)).getD k 0#8 := by
      intro k low
      have slot : (0x200000 + 64 * i + k - 0x200000) / 64 = i := by omega
      have offset : (0x200000 + 64 * i + k - 0x200000) % 64 = k := by omega
      rw [window, wrap_eq (by omega), same _ (by omega) (by omega), faultMemory, if_neg (by omega),
        if_neg (by omega), if_pos (by omega), slot, offset]
    refine ⟨fun k here => ?_, plain.nonzero, ?_⟩
    · rw [byte k (Nat.lt_trans here plain.short), List.getD_eq_getElem _ _ here]
    · rw [byte _ plain.short, List.getD_eq_default _ _ (Nat.le_refl _)]
  refine ⟨fun i name named => ?_, string 32 (by decide)⟩
  have inside : i < 32 := (List.getElem?_eq_some_iff.mp named).1
  have text : faultTextsAt i = name := by
    rw [faultTextsAt, if_neg (by omega), List.getD_eq_getElem?_getD, named, Option.getD_some]
  have pointer : load32 m (wrap (0x300000 + 4 * i)) = 0x200000 + 64 * i := by
    have stored := load32_store32 m (0x300000 + 4 * i) (0x200000 + 64 * i) (by omega) (by omega)
    rw [wrap_eq (by omega), ← stored]
    refine load32_congr fun k low => ?_
    have slot : (0x300000 + 4 * i + k - 0x300000) / 4 = i := by omega
    have place : (0x300000 + 4 * i + k) % 4 = k := by omega
    have offset : wsub (0x300000 + 4 * i + k) (0x300000 + 4 * i) = k := by
      rw [wsub_eq (by omega) (by omega)]
      omega
    rw [wrap_eq (by omega), same _ (by omega) (by omega), faultMemory, if_neg (by omega), if_pos (by omega),
      slot, place, store32, offset, if_pos low]
  rw [pointer, ← text]
  exact string i (by omega)

def textsProcessor : Processor where
  toCpu := { zeroCpu with mem := faultMemory }
  reg_lt := zeroProcessor.reg_lt
  seg_lt := zeroProcessor.seg_lt
  eip_lt := zeroProcessor.eip_lt
  cs_lt := zeroProcessor.cs_lt
  eflags_lt := zeroProcessor.eflags_lt

/-- A page fault is reported where the word at 14 is 14. -/
theorem page_fault_reported : FaultEnds someLinks 14 2 0x300000 (0x200000 + 64 * 32) (fun _ => 0)
    textsProcessor.toCpu (.halted (reportText "Page Fault")) :=
  (fault_reported_iff someLinks textsProcessor 14 (by decide) 2 _ _ _
    (faultMemory_texts fun _ above word =>
      enterGate_above someLinks textsProcessor 14 2 (by decide) (Nat.le_trans (by decide) above) word)).1.mpr
    (Or.inl (by decide +kernel))

end RiseOS
