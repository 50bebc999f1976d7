import RiseOS.Kernel.Vmm

/-! kernel/rise.c: the page hooks under liballoc. -/
namespace RiseOS
open Words

def regionSize (pages : Int) : Nat := ofInt (pages * pageSize)

def Vmm.refuses (s : Vmm) (pages : Int) : Prop :=
  signed (wrap (regionSize pages + s.heapCur)) ≥ signed s.heapEnd

instance (s : Vmm) (pages : Int) : Decidable (s.refuses pages) :=
  inferInstanceAs (Decidable (_ ≥ _))

/-- `heap_cur` only moves up. The result is `none` when allocate_region loops for ever. -/
def Vmm.liballocAlloc (s : Vmm) (pages : Int) : Option (Vmm × Nat) :=
  let size := regionSize pages
  if s.refuses pages then
    let s := s.qemuPrintf "Out of memory: You need a bigger heap pal\n"
    some ({ s with calls := s.calls ++ [.refused pages] }, 0)
  else
    let endVa := wrap (s.heapCur + size)
    (s.allocateRegion s.heapCur endVa).map fun s =>
      let rez := s.heapCur
      ({ s with heapCur := wrap (s.heapCur + size), calls := s.calls ++ [.alloc pages rez] }, rez)

def Vmm.liballocFree (s : Vmm) (ptr : Nat) (pages : Int) : Option (Vmm × Int) :=
  let endVa := wrap (ptr + regionSize pages)
  (s.freeRegion ptr endVa).map fun s => ({ s with calls := s.calls ++ [.free ptr pages] }, 1)

def HookCall.apply (chunks : List (Nat × Int)) : HookCall → List (Nat × Int)
  | .refused _ => chunks
  | .alloc pages rez => if rez = 0 then chunks else (rez, pages) :: chunks
  | .free ptr _ => chunks.filter (fun c => c.1 ≠ ptr)

/-- The chunks that liballoc_alloc returned and liballoc_free has not been given. -/
def outstanding (calls : List HookCall) : List (Nat × Int) := calls.foldl HookCall.apply []

@[simp] theorem outstanding_snoc (calls : List HookCall) (c : HookCall) :
    outstanding (calls ++ [c]) = c.apply (outstanding calls) := by
  simp [outstanding]

end RiseOS
