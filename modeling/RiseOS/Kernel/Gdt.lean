import RiseOS.Library.Descriptors

/-! kernel/gdt.c, and gdt_flush of boot.S. The tables are bytes of memory, at the
addresses that the linker gives them. -/
namespace RiseOS
open Words X86

/-- Where the linker puts the tables and their pointers. -/
structure TableLinks where
  gdt : Nat
  gp : Nat
  idt : Nat
  idtp : Nat

/-- The fields of struct gdt_entry are limit_low, base_low, base_middle, access,
granularity and base_high, packed. -/
def gdtSetGate (m : Memory) (gdt num base limit access gran : Nat) : Memory :=
  let entry := gdt + 8 * num
  let m := store16 m (entry + 2) (base &&& 0xFFFF)
  let m := store8 m (entry + 4) ((base >>> 16) &&& 0xFF)
  let m := store8 m (entry + 7) ((base >>> 24) &&& 0xFF)
  let m := store16 m entry (limit &&& 0xFFFF)
  let m := store8 m (entry + 6) ((limit >>> 16) &&& 0x0F)
  let m := store8 m (entry + 6) (load8 m (entry + 6) ||| (gran &&& 0xF0))
  store8 m (entry + 5) access

/-- The far jump loads cs. -/
def gdtFlush (s : Machine) (ptr : Nat) : Machine :=
  { s with
    gdtr := readTableReg s.mem ptr
    ds := 0x10, es := 0x10, fs := 0x10, gs := 0x10, ss := 0x10, cs := 0x08 }

def gdtInstall (links : TableLinks) (s : Machine) : Machine :=
  let m := store16 s.mem links.gp (8 * 3 - 1)
  let m := store32 m (links.gp + 2) links.gdt
  let m := gdtSetGate m links.gdt 0 0 0 0 0
  let m := gdtSetGate m links.gdt 1 0 0xFFFFFFFF 0x9A 0xCF
  let m := gdtSetGate m links.gdt 2 0 0xFFFFFFFF 0x92 0xCF
  gdtFlush { s with mem := m } links.gp

end RiseOS
