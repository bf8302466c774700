import Neutrino.Library.RadixTables
import Neutrino.Virtual.Paging

namespace Neutrino.Virtual

open Library

abbrev Mem := Frame → Index → W64

def Mem.write (mem : Mem) (g : Frame) (i : Index) (e : W64) : Mem :=
  Function.update mem g (Function.update (mem g) i e)

/-- How the processor reads an entry of a level: 3 for the PML4 down to 0 for a page table. -/
def hardware (level : Nat) (_ : Index) (e : W64) : Slot Frame :=
  if isPresent e then
    match level with
    | 0 => .page
    | 1 | 2 => if isHuge e then .page else .table (frameOf e)
    | 3 => if isHuge e then .empty else .table (frameOf e)
    | _ => .empty
  else .empty

structure Translation where
  entries : List W64
  frame : Frame
  deriving DecidableEq, Repr

/-- The walk of the processor. Accessed and dirty bits are not modelled; the rights are in the entries. -/
def walk (mem : Mem) (root : Frame) (q : PageNumber) : Option Translation :=
  if canonical q then
    (lookup hardware mem root (indices q)).map fun (entries, left) =>
      ⟨entries, pageFrame (entries.getLastD 0#64) left⟩
  else none

/-- What the code of the memory manager works on. `supply` holds the frames that the physical
    allocator hands out next and `freed` the addresses given back to it. -/
structure Core where
  mem : Mem
  cr3 : Frame
  initialized : Bool
  supply : List Frame
  freed : List W64

def Core.withMem (c : Core) (mem : Mem) : Core := { c with mem := mem }

def Core.withSupply (c : Core) (supply : List Frame) : Core := { c with supply := supply }

/-- A use of a page of virtual memory: the frame that the tables give for it, the frames that the
    TLB may hold for it instead, and the memory at that time. -/
structure Access where
  page : PageNumber
  frame : Frame
  retained : List Frame
  mem : Mem

/-- The translations in `tlb` are those used since the last `invlpg` of their page or the last
    write of CR3. -/
structure Machine where
  core : Core
  tlb : List (PageNumber × Frame)
  log : List Access

/-- A page fault and the end of physical memory end the run. -/
abbrev VmmM := StateT Machine Option

def Machine.retained (m : Machine) (q : PageNumber) : List Frame :=
  (m.tlb.filter (·.1 = q)).map (·.2)

def Machine.used (m : Machine) (q : PageNumber) (f : Frame) : Machine :=
  { m with tlb := (q, f) :: m.tlb, log := m.log ++ [⟨q, f, m.retained q, m.core.mem⟩] }

def Machine.withCore (m : Machine) (c : Core) : Machine := { m with core := c }

-- Which uses of pages go through the gate in slot 509.

def gatePath : List Index → Bool
  | [] => false
  | i :: rest => i == recurseOther || (i == recurseActive && gatePath rest)

def throughGate (q : PageNumber) : Bool := gatePath (indices q)

def Machine.walked (m : Machine) (q : PageNumber) : Option Frame :=
  (walk m.core.mem m.core.cr3 q).map (·.frame)

def isWritable (e : W64) : Bool := (e &&& writableBitOffset) != 0#64

def Machine.writable (m : Machine) (q : PageNumber) : Bool :=
  (walk m.core.mem m.core.cr3 q).any (·.entries.all isWritable)

/-- What the code leaves to the processor and to those who set it up: whether CR0.WP subjects the
    kernel's own writes to the rights of the pages, and whether a page of the gate is answered by the
    tables or with a frame that the TLB still holds for it. For other pages the TLB is taken to hold
    nothing that is out of date. -/
class Processor where
  writeProtect : Bool
  answer : Machine → PageNumber → Option Frame
  held : ∀ m q, answer m q = m.walked q ∨ throughGate q = true ∧ ∃ f ∈ m.retained q, answer m q = some f

/-- CR0.WP is clear, as the boot loader leaves it, and each use of a page walks the tables. -/
instance tableWalker : Processor where
  writeProtect := false
  answer := Machine.walked
  held _ _ := .inl rfl

def access [Processor] (addr : W64) : VmmM Frame := fun m =>
  (Processor.answer m (pageNumber addr)).map fun f => (f, m.used (pageNumber addr) f)

def load [Processor] (addr : W64) : VmmM W64 := do
  let f ← access addr
  return (← get).core.mem f (wordIndex addr)

def store [Processor] (addr value : W64) : VmmM Unit := do
  if Processor.writeProtect && !(← get).writable (pageNumber addr) then failure
  let f ← access addr
  modify fun m => m.withCore (m.core.withMem (m.core.mem.write f (wordIndex addr) value))

/-- `memory_set` with the value 0, a word at a time. -/
def memoryClear [Processor] (dest : W64) (words : Nat) : VmmM Unit :=
  (List.range words).forM fun i => store (entryAddress dest (BitVec.ofNat 64 i)) 0#64

def vmmReloadTlb (addr : W64) : VmmM Unit :=
  modify fun m => { m with tlb := m.tlb.filter (·.1 ≠ pageNumber addr) }

def vmmReloadCr3 : VmmM Unit := modify fun m => { m with tlb := [] }

def readCr3 : VmmM W64 := return frameAddress (← get).core.cr3

def writeCr3 (value : W64) : VmmM Unit :=
  modify fun m => { m with core := { m.core with cr3 := frameOf value }, tlb := [] }

def pmmAlloc : VmmM W64 := fun m =>
  match m.core.supply with
  | [] => none
  | f :: rest => some (frameAddress f, m.withCore (m.core.withSupply rest))

/-- The first block of the series; the others follow it. -/
def pmmAllocSeries (_size : Nat) : VmmM W64 := pmmAlloc

def pmmFree (addr : W64) : VmmM Unit :=
  modify fun m => m.withCore { m.core with freed := m.core.freed ++ [addr] }

def pmmFreeSeries (addr : W64) (size : Nat) : VmmM Unit :=
  (List.range size).forM fun i => pmmFree (addr + BitVec.ofNat 64 (i * pageSize))

end Neutrino.Virtual
