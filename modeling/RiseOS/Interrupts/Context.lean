import RiseOS.Interrupts.Dispatch
import RiseOS.Kernel.Isr

/-! What an interrupt leaves of the interrupted context, once its C handler has
returned through the stub. -/
namespace RiseOS
open Words X86

/-- A handler called at `entry` has returned by the C convention, and has not written
between its struct regs and the stack pointer of the interrupted code. -/
structure HandlerReturned (c entry after : Cpu) : Prop where
  eip : after.eip = entry.top
  esp : after.reg .esp = wrap (4 + entry.reg .esp)
  saved : ∀ r ∈ [Reg.ebx, .ebp, .esi, .edi], after.reg r = entry.reg r
  frame : ∀ k, k < wsub (c.reg .esp) (irqArgument entry) →
    after.mem (wrap (irqArgument entry + k)) = entry.mem (wrap (irqArgument entry + k))

/-- The rest of the stub ends in an iret that finds the stack pointer at the eip that the
processor pushed, and takes everything back to `c`; the handler saw the right frame. -/
structure ContextPreserved (c entry after : Cpu) (rest : List Instr) : Prop where
  last : rest.getLast? = some .iret
  atFrame : (after.run rest.dropLast).reg .esp = wsub (c.reg .esp) 12
  eip : (after.run rest).eip = c.eip
  cs : (after.run rest).cs = c.cs
  eflags : (after.run rest).eflags = c.eflags
  regs : ∀ r, (after.run rest).reg r = c.reg r
  segs : ∀ s, (after.run rest).seg s = c.seg s
  seenEip : regsField entry.mem (irqArgument entry) .eip = c.eip
  seenCs : regsField entry.mem (irqArgument entry) .cs = c.cs
  seenEflags : regsField entry.mem (irqArgument entry) .eflags = c.eflags

def regField : Reg → RegsField
  | .eax => .eax | .ecx => .ecx | .edx => .edx | .ebx => .ebx
  | .esp => .esp | .ebp => .ebp | .esi => .esi | .edi => .edi

def segField : Seg → RegsField
  | .ds => .ds | .es => .es | .fs => .fs | .gs => .gs

/-- Both common stubs from the call on. -/
def afterCall : List Instr :=
  [.pop .eax, .popSeg .gs, .popSeg .fs, .popSeg .es, .popSeg .ds, .popa, .addEsp 8, .iret]

theorem isrCommonStub_eq (handler : Nat) : isrCommonStub handler = irqCommonStub handler := rfl

theorem exists_common (links : GateLinks) (vector : Fin 48) : ∃ handler behind,
    gateCode links vector = ((isrGates ++ irqGates).getD vector [] ++ irqCommonStub handler, behind) := by
  unfold gateCode
  split
  · exact ⟨links.faultHandler, links.behindFaultCall, by rw [isrCommonStub_eq]⟩
  · exact ⟨links.irqHandler, links.behindIrqCall, rfl⟩

theorem gates_eq (vector : Fin 48) : (isrGates ++ irqGates).getD vector [] =
    if pushesErrorCode vector = true ∧ vector ≠ 17 then isrErrorStub vector else isrStub vector := by
  obtain ⟨n, inside⟩ := vector
  interval_cases n <;> rfl

theorem runToCall_isrStub (t : Cpu) (vector behind : Nat) (rest : List Instr) :
    t.runToCall behind (isrStub vector ++ rest) = (t.run (isrStub vector)).runToCall behind rest := rfl

theorem runToCall_isrErrorStub (t : Cpu) (vector behind : Nat) (rest : List Instr) :
    t.runToCall behind (isrErrorStub vector ++ rest) =
      (t.run (isrErrorStub vector)).runToCall behind rest := rfl

theorem isrStub_pushed {c t : Cpu} {vs : List Nat} (h : Pushed c vs t) (vector : Nat)
    (room : vs.length ≤ 4) : ∃ extra, extra.length = 2 ∧ Pushed c (vs ++ extra) (t.run (isrStub vector)) := by
  have errCode := h.cli.push (load32 (t.exec .cli).mem 0) (by omega)
  have intNo := errCode.push (load32 ((t.exec .cli).exec (.pushMem 0)).mem vector) (by simp; omega)
  rw [List.append_assoc] at intNo
  exact ⟨_, rfl, intNo⟩

theorem isrErrorStub_pushed {c t : Cpu} {vs : List Nat} (h : Pushed c vs t) (vector : Nat)
    (room : vs.length ≤ 4) :
    ∃ extra, extra.length = 1 ∧ Pushed c (vs ++ extra) (t.run (isrErrorStub vector)) :=
  ⟨_, rfl, h.cli.push (load32 (t.exec .cli).mem vector) (by omega)⟩

/-- Whatever the vector, its gate leads to the common stub, with two words between the
processor's eip and pusha; for 17 there are three. -/
theorem enterGate_pushed (links : GateLinks) (c : Processor) (vector : Fin 48) (errorCode : Nat) :
    ∃ t handler behind extra,
      enterGate links c.toCpu vector errorCode = t.runToCall behind (irqCommonStub handler) ∧
      Pushed c.toCpu ([c.eflags, c.cs, c.eip] ++ extra) t ∧
      extra.length = if vector = 17 then 3 else 2 := by
  obtain ⟨handler, behind, code⟩ := exists_common links vector
  have start := trap_pushed (c.reg_lt .esp)
    (if pushesErrorCode vector then some errorCode else none)
  unfold enterGate
  rw [code, gates_eq]
  dsimp only
  generalize c.toCpu.trap _ = t at start ⊢
  by_cases pushes : pushesErrorCode vector = true
  · rw [if_pos pushes] at start
    by_cases alignment : vector = 17
    · obtain ⟨extra, two, pushed⟩ := isrStub_pushed start vector (by simp)
      rw [if_neg (fun h => h.2 alignment), if_pos alignment, runToCall_isrStub]
      rw [List.append_assoc] at pushed
      exact ⟨_, handler, behind, _, rfl, pushed, by simp [two]⟩
    · obtain ⟨extra, one, pushed⟩ := isrErrorStub_pushed start vector (by simp)
      rw [if_pos ⟨pushes, alignment⟩, if_neg alignment, runToCall_isrErrorStub]
      rw [List.append_assoc] at pushed
      exact ⟨_, handler, behind, _, rfl, pushed, by simp [one]⟩
  · rw [if_neg pushes] at start
    have other : vector ≠ 17 := by
      rintro rfl
      exact pushes rfl
    obtain ⟨extra, two, pushed⟩ := isrStub_pushed start vector (by simp)
    rw [if_neg (fun h => pushes h.1), if_neg other, runToCall_isrStub]
    rw [List.append_assoc] at pushed
    exact ⟨_, handler, behind, _, rfl, pushed, by simp [two]⟩

def savedWords (t : Cpu) (behind : Nat) : List Nat :=
  [t.reg .eax, t.reg .ecx, t.reg .edx, t.reg .ebx, t.reg .esp, t.reg .ebp, t.reg .esi, t.reg .edi,
   t.seg .ds, t.seg .es, t.seg .fs, t.seg .gs, wsub (t.reg .esp) 48, behind]

theorem common_entry (t : Cpu) (handler behind : Nat) :
    (t.runToCall behind (irqCommonStub handler)).1.mem =
        pushAll t.mem (t.reg .esp) (savedWords t behind) ∧
      (t.runToCall behind (irqCommonStub handler)).1.reg .esp = wsub (t.reg .esp) 56 ∧
      (t.runToCall behind (irqCommonStub handler)).2 = afterCall := by
  refine ⟨?_, ?_, rfl⟩
  · simp [irqCommonStub, Cpu.runToCall, Cpu.exec, Cpu.pushWords, Cpu.setReg, Cpu.setSeg, Cpu.pushWord,
      pushAll, savedWords, wsub_wsub]
  · simp [irqCommonStub, Cpu.runToCall, Cpu.exec, Cpu.pushWords, Cpu.setReg, Cpu.setSeg, Cpu.pushWord,
      wsub_wsub]

theorem common_argument (t : Cpu) (handler behind : Nat) :
    irqArgument (t.runToCall behind (irqCommonStub handler)).1 = wsub (t.reg .esp) 48 := by
  obtain ⟨mem, esp, _⟩ := common_entry t handler behind
  have here : wrap (4 + wsub (t.reg .esp) 56) = wsub (t.reg .esp) (4 * (12 + 1)) := by
    simp only [wsub, wrap]
    omega
  rw [irqArgument, esp, mem, here]
  exact load32_pushed _ t.mem (t.reg .esp) 12 _ rfl (wrap_lt _) (by simp [savedWords])

theorem saved_field (t : Cpu) (handler behind : Nat) {field : RegsField} {v : Nat}
    (low : field.index < 12) (pushed : (savedWords t behind)[11 - field.index]? = some v)
    (word : v < 2 ^ 32) :
    regsField (t.runToCall behind (irqCommonStub handler)).1.mem (wsub (t.reg .esp) 48) field = v := by
  have place : wrap (4 * field.index + wsub (t.reg .esp) 48) =
      wsub (t.reg .esp) (4 * (11 - field.index + 1)) := by
    simp only [wsub, wrap]
    omega
  rw [regsField, place, (common_entry t handler behind).1]
  exact load32_pushed _ t.mem (t.reg .esp) _ v pushed word (by simp [savedWords])

theorem upper_field (t : Cpu) (handler behind : Nat) {field : RegsField} (high : 12 ≤ field.index)
    (small : field.index < 19) :
    regsField (t.runToCall behind (irqCommonStub handler)).1.mem (wsub (t.reg .esp) 48) field =
      load32 t.mem (wrap (t.reg .esp + 4 * (field.index - 12))) := by
  have place : wrap (4 * field.index + wsub (t.reg .esp) 48) =
      wrap (t.reg .esp + 4 * (field.index - 12)) := by
    simp only [wsub, wrap]
    omega
  rw [regsField, place, (common_entry t handler behind).1]
  exact load32_pushAll _ t.mem (t.reg .esp) _ (by simp [savedWords]; omega)

theorem restore_regs (x : Cpu) (r : Nat) (esp : x.reg .esp = wsub r 4) :
    (∀ q, q ≠ .esp → (x.run afterCall).reg q = regsField x.mem r (regField q)) ∧
    (∀ s, (x.run afterCall).seg s = regsField x.mem r (segField s) % 2 ^ 16) ∧
    (x.run afterCall.dropLast).reg .esp = wrap (56 + r) ∧
    (x.run afterCall).reg .esp = wrap (68 + r) ∧
    (x.run afterCall).eip = regsField x.mem r .eip ∧
    (x.run afterCall).cs = regsField x.mem r .cs % 2 ^ 16 ∧
    (x.run afterCall).eflags = regsField x.mem r .eflags := by
  have back : wrap (4 + wsub r 4) = wrap r := by
    simp only [wsub, wrap]
    omega
  refine ⟨?_, ?_, ?_, ?_, ?_, ?_, ?_⟩
  · intro q other
    cases q
    case esp => exact absurd rfl other
    all_goals simp [afterCall, Cpu.run, Cpu.exec, Cpu.popReg, Cpu.drop, Cpu.top, Cpu.setReg, Cpu.setSeg,
      esp, back, wrap_add, load32_wrap, regField, regsField, RegsField.index, ← Nat.add_assoc]
  · intro s
    cases s
    all_goals simp [afterCall, Cpu.run, Cpu.exec, Cpu.popReg, Cpu.drop, Cpu.top, Cpu.setReg, Cpu.setSeg,
      esp, back, wrap_add, load32_wrap, segField, regsField, RegsField.index, ← Nat.add_assoc]
  all_goals simp [afterCall, Cpu.run, Cpu.exec, Cpu.popReg, Cpu.drop, Cpu.top, Cpu.setReg, Cpu.setSeg,
      esp, back, wrap_add, load32_wrap, regsField, RegsField.index, ← Nat.add_assoc]

theorem handler_keeps {c entry after : Cpu} (h : HandlerReturned c entry after) {r : Nat}
    (argument : irqArgument entry = r) (field : RegsField)
    (inside : 4 * field.index + 4 ≤ wsub (c.reg .esp) r) :
    regsField after.mem r field = regsField entry.mem r field := by
  refine load32_congr ?_
  intro k hk
  have place : wrap (wrap (4 * field.index + r) + k) = wrap (r + (4 * field.index + k)) := by
    simp only [wrap]
    omega
  rw [place, ← argument]
  refine h.frame _ ?_
  rw [argument]
  omega

section Preserved

variable {c : Processor} {t : Cpu} {extra : List Nat}
  (pushed : Pushed c.toCpu ([c.eflags, c.cs, c.eip] ++ extra) t)

include pushed

theorem reg_saved (handler behind : Nat) {q : Reg} (other : q ≠ .esp) :
    regsField (t.runToCall behind (irqCommonStub handler)).1.mem (wsub (t.reg .esp) 48) (regField q) =
      c.reg q := by
  have same := pushed.regs q other
  refine saved_field t handler behind ?_ ?_ (c.reg_lt q)
  · cases q <;> decide
  · cases q
    case esp => exact absurd rfl other
    all_goals exact congrArg some same

theorem seg_saved (handler behind : Nat) (s : Seg) :
    regsField (t.runToCall behind (irqCommonStub handler)).1.mem (wsub (t.reg .esp) 48) (segField s) =
      c.seg s := by
  have low : c.seg s < 2 ^ 32 := Nat.lt_trans (c.seg_lt s) (by decide)
  refine saved_field t handler behind ?_ ?_ low
  · cases s <;> decide
  · cases s
    all_goals exact congrArg some (congrFun pushed.segs _)

theorem frame_field (two : extra.length = 2) (handler behind : Nat) (field : RegsField) {v : Nat}
    (high : 14 ≤ field.index) (small : field.index < 17)
    (word : [c.eflags, c.cs, c.eip][16 - field.index]? = some v) (low : v < 2 ^ 32) :
    regsField (t.runToCall behind (irqCommonStub handler)).1.mem (wsub (t.reg .esp) 48) field = v := by
  rw [upper_field t handler behind (by omega) (by omega), pushed.mem, pushed.esp]
  have place : wrap (wsub (c.reg .esp) (4 * ([c.eflags, c.cs, c.eip] ++ extra).length) +
      4 * (field.index - 12)) = wsub (c.reg .esp) (4 * (16 - field.index + 1)) := by
    rw [List.length_append, two]
    simp only [List.length_cons, List.length_nil, wsub, wrap]
    omega
  have inside : 16 - field.index < [c.eflags, c.cs, c.eip].length := by
    simp
    omega
  rw [place]
  refine load32_pushed _ c.mem (c.reg .esp) _ v ?_ low (by simp [two])
  rw [List.getElem?_append_left inside]
  exact word

variable {after : Cpu} {handler behind : Nat}
  (returned : HandlerReturned c.toCpu (t.runToCall behind (irqCommonStub handler)).1 after)

include returned

omit pushed in
theorem returned_esp : after.reg .esp = wsub (wsub (t.reg .esp) 48) 4 := by
  rw [returned.esp, (common_entry t handler behind).2.1]
  simp only [wsub, wrap]
  omega

theorem returned_field (two : extra.length = 2) (field : RegsField) (small : field.index < 17) :
    regsField after.mem (wsub (t.reg .esp) 48) field =
      regsField (t.runToCall behind (irqCommonStub handler)).1.mem (wsub (t.reg .esp) 48) field := by
  have room : wsub (c.reg .esp) (wsub (t.reg .esp) 48) = 68 := by
    rw [pushed.esp, List.length_append, two]
    simp only [List.length_cons, List.length_nil, wsub, wrap]
    omega
  refine handler_keeps returned (common_argument t handler behind) field ?_
  rw [room]
  omega

theorem two_words_preserve (two : extra.length = 2) :
    ContextPreserved c.toCpu (t.runToCall behind (irqCommonStub handler)).1 after afterCall := by
  obtain ⟨regs, segs, atFrame, final, eip, cs, eflags⟩ := restore_regs after _ (returned_esp returned)
  have kept := returned_field pushed returned two
  have argument := common_argument t handler behind
  have csLow : c.cs < 2 ^ 32 := Nat.lt_trans c.cs_lt (by decide)
  have seenEip := frame_field pushed two handler behind .eip (by decide) (by decide) rfl c.eip_lt
  have seenCs := frame_field pushed two handler behind .cs (by decide) (by decide) rfl csLow
  have seenEflags := frame_field pushed two handler behind .eflags (by decide) (by decide) rfl
    c.eflags_lt
  have top := pushed.esp
  rw [List.length_append, two] at top
  refine ⟨rfl, ?_, ?_, ?_, ?_, ?_, ?_, ?_, ?_, ?_⟩
  · rw [atFrame, top]
    simp only [List.length_cons, List.length_nil, wsub, wrap]
    omega
  · rw [eip, kept .eip (by decide)]
    exact seenEip
  · rw [cs, kept .cs (by decide), seenCs]
    exact Nat.mod_eq_of_lt c.cs_lt
  · rw [eflags, kept .eflags (by decide)]
    exact seenEflags
  · intro q
    by_cases stack : q = .esp
    · have word := c.reg_lt .esp
      rw [stack, final, top]
      simp only [List.length_cons, List.length_nil, wsub, wrap]
      omega
    · rw [regs q stack, kept _ (by cases q <;> decide)]
      exact reg_saved pushed handler behind stack
  · intro s
    rw [segs s, kept _ (by cases s <;> decide), seg_saved pushed handler behind s]
    exact Nat.mod_eq_of_lt (c.seg_lt s)
  · rw [argument]
    exact seenEip
  · rw [argument]
    exact seenCs
  · rw [argument]
    exact seenEflags

/-- The last add removes two words; with three the iret starts at the error code. -/
theorem three_words_break (three : extra.length = 3) :
    ¬ ContextPreserved c.toCpu (t.runToCall behind (irqCommonStub handler)).1 after afterCall := by
  intro preserved
  have frame := preserved.atFrame
  rw [(restore_regs after _ (returned_esp returned)).2.2.1, pushed.esp, List.length_append,
    three] at frame
  simp only [List.length_cons, List.length_nil, wsub, wrap] at frame
  omega

end Preserved

/-- A handler that keeps to the convention and leaves the frame alone returns to the
interrupted code with all its registers exactly when the vector is not 17: there both
the processor and the stub push an error code, and the stub's last add removes one. -/
theorem context_preserved_iff (links : GateLinks) (c : Processor) (vector : Fin 48) (errorCode : Nat)
    (after : Cpu)
    (returned : HandlerReturned c.toCpu (enterGate links c.toCpu vector errorCode).1 after) :
    ContextPreserved c.toCpu (enterGate links c.toCpu vector errorCode).1 after
      (enterGate links c.toCpu vector errorCode).2 ↔ vector ≠ 17 := by
  obtain ⟨t, handler, behind, extra, entered, pushed, length⟩ :=
    enterGate_pushed links c vector errorCode
  rw [entered] at returned ⊢
  rw [(common_entry t handler behind).2.2]
  by_cases alignment : vector = 17
  · rw [if_pos alignment] at length
    exact iff_of_false (three_words_break pushed returned length) (fun other => other alignment)
  · rw [if_neg alignment] at length
    exact iff_of_true (two_words_preserve pushed returned length) alignment

def zeroProcessor : Processor where
  toCpu := zeroCpu
  reg_lt := by
    intro r
    cases r <;> decide
  seg_lt := fun _ => (by decide : (0x10 : Nat) < 2 ^ 16)
  eip_lt := by decide
  cs_lt := by decide
  eflags_lt := by decide

def someLinks : GateLinks := ⟨0x101000, 0x102000, 0x103000, 0x104000⟩

theorem ret_returned (links : GateLinks) (c : Cpu) (vector : Fin 48) (errorCode : Nat) :
    HandlerReturned c (enterGate links c vector errorCode).1 (enterGate links c vector errorCode).1.ret :=
  ⟨rfl, rfl, fun r hr => by cases r <;> first | rfl | simp at hr, fun _ _ => rfl⟩

/-- A page fault comes back to where it was. -/
theorem page_fault_preserved : ContextPreserved zeroCpu (enterGate someLinks zeroCpu 14 2).1
    (enterGate someLinks zeroCpu 14 2).1.ret (enterGate someLinks zeroCpu 14 2).2 :=
  (context_preserved_iff someLinks zeroProcessor 14 2 _ (ret_returned someLinks zeroCpu 14 2)).mpr
    (by decide)

/-- After an alignment check the iret finds the stack pointer a word too low. -/
theorem alignment_check_not_preserved :
    HandlerReturned zeroCpu (enterGate someLinks zeroCpu 17 0).1 (enterGate someLinks zeroCpu 17 0).1.ret ∧
    ¬ ContextPreserved zeroCpu (enterGate someLinks zeroCpu 17 0).1
      (enterGate someLinks zeroCpu 17 0).1.ret (enterGate someLinks zeroCpu 17 0).2 := by
  refine ⟨ret_returned someLinks zeroCpu 17 0, ?_⟩
  intro preserved
  have frame := preserved.atFrame
  revert frame
  decide +kernel

end RiseOS
