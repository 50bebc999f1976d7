import RiseOS.Kernel.Gdt
import RiseOS.Kernel.Isr
import RiseOS.Kernel.LibcString

/-! kernel/idt.c, idt_load of boot.S, and isrs_install and irq_install, which fill the
interrupt table. -/
namespace RiseOS
open Words X86

/-- The fields of struct idt_entry are base_lo, sel, always0, flags and base_hi, packed;
`num` is an unsigned char. -/
def idtSetGate (m : Memory) (idt : Nat) (num : Fin 256) (base sel flags : Nat) : Memory :=
  let entry := idt + 8 * num
  let m := store16 m entry (base &&& 0xFFFF)
  let m := store16 m (entry + 6) ((base >>> 16) &&& 0xFFFF)
  let m := store16 m (entry + 2) sel
  let m := store8 m (entry + 4) 0
  store8 m (entry + 5) flags

def idtLoad (s : Machine) (ptr : Nat) : Machine := { s with idtr := readTableReg s.mem ptr }

def idtInstall (links : TableLinks) (s : Machine) : Machine :=
  let m := store16 s.mem links.idtp (8 * 256 - 1)
  let m := store32 m (links.idtp + 2) links.idt
  let m := (memset m links.idt 0 (8 * 256)).1
  idtLoad { s with mem := m } links.idtp

/-- The addresses of the stubs isr0 to isr31 and irq0 to irq15. -/
structure StubLinks where
  isr : Fin 32 → Nat
  irq : Fin 16 → Nat

/-- One line for each gate, in order. -/
def isrsInstall (links : TableLinks) (stubs : StubLinks) (s : Machine) : Machine :=
  let line (m : Memory) (i : Fin 32) :=
    idtSetGate m links.idt ⟨i, by omega⟩ (stubs.isr i) 0x08 0x8E
  { s with mem := (List.finRange 32).foldl line s.mem }

/-- irq_remap's port writes come first, and then one line for each gate. -/
def irqInstall (links : TableLinks) (stubs : StubLinks) (s : Machine) : Machine × List IrqEvent :=
  let line (m : Memory) (i : Fin 16) :=
    idtSetGate m links.idt ⟨32 + i, by omega⟩ (stubs.irq i) 0x08 0x8E
  ({ s with mem := (List.finRange 16).foldl line s.mem }, irqRemap)

/-- What kernel_main does of this before it enables interrupts. -/
def installTables (links : TableLinks) (stubs : StubLinks) (s : Machine) : Machine × List IrqEvent :=
  irqInstall links stubs (isrsInstall links stubs (idtInstall links (gdtInstall links s)))

end RiseOS
