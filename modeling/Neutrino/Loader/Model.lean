import Neutrino.Library.Bytes
import Neutrino.Machine.Common

namespace Neutrino.Loader

open Library

abbrev Byte := BitVec 8

/-- What `memory_allocate` returns: `size` bytes at `virtualBase`. -/
structure VirtualMapping where
  physicalBase : W64
  physicalSize : W32
  virtualBase : W64
  deriving DecidableEq, Repr

structure MappingFlags where
  mapUser : Bool
  mapWritable : Bool
  deriving DecidableEq, Repr

/-- What the loader asks of the rest of the kernel. The space of `space_map` is that of the
    task `new_task` made; names of binaries are only printed and left out. -/
structure Kernel (m : Type → Type) where
  load : W64 → m Byte
  store : W64 → Byte → m Unit
  memoryAllocate : W32 → m VirtualMapping
  spaceMap : (physAddr virtAddr : W64) → (size : W32) → MappingFlags → m Unit
  newTask : (user : Bool) → m Unit
  schedStart : (entryPoint : W64) → m Unit

def elfMagic : List Byte := [0x7f#8, 0x45#8, 0x4c#8, 0x46#8]
def elf64Bit : Byte := 2#8
def elfLittleEndian : Byte := 1#8
def segmentTypeLoad : W32 := 1#32
def segmentFlagsWritable : W32 := 2#32

/-- The size of a segment's region, narrowed to the source's 32-bit `size_t`. -/
def segmentSize (memSize fileSize : W64) : W32 :=
  ((((if memSize > fileSize then memSize else fileSize) + 0x1000#64 - 1#64) &&& ~~~0xfff#64)).setWidth 32

section

variable {m : Type → Type} [Monad m] (kernel : Kernel m)

def readBytes (address : W64) : Nat → m (List Byte)
  | 0 => pure []
  | count + 1 => do
    let byte ← kernel.load address
    let bytes ← readBytes (address + 1#64) count
    return byte :: bytes

/-- A field of a packed structure, in `width / 8` bytes. -/
def readField (width : Nat) (address : W64) : m (BitVec width) :=
  (fun bytes => BitVec.ofNat width (ofLe bytes)) <$> readBytes kernel address (width / 8)

/-- Against a string of at least `len` characters, given by its first `len`. -/
def strncmp (s1 : W64) : List Byte → m Int
  | [] => return 0
  | c :: cs => do
    let byte ← kernel.load s1
    if byte ≠ 0#8 ∧ byte = c then strncmp (s1 + 1#64) cs
    else
      let byte ← kernel.load s1
      return byte.toNat - c.toNat

def elfCheck (header : W64) : m Bool := do
  let order ← strncmp kernel header elfMagic
  return order == 0

/-- The condition under which `load_elf` maps a segment without write permission. -/
def isReadOnly (prgHeader : W64) : m Bool := do
  let flags ← readField kernel 32 (prgHeader + 4#64)
  if flags &&& segmentFlagsWritable = 0#32 then do
    let fileSize ← readField kernel 64 (prgHeader + 32#64)
    let memSize ← readField kernel 64 (prgHeader + 40#64)
    return fileSize == memSize
  else return false

/-- The body of `load_elf` for a `PT_LOAD` header. -/
def loadSegment (binary : W64) (user : Bool) (prgHeader : W64) : m Unit := do
  let memSize ← readField kernel 64 (prgHeader + 40#64)
  let fileSize ← readField kernel 64 (prgHeader + 32#64)
  let size := segmentSize memSize fileSize
  let vmap ← kernel.memoryAllocate size
  memorySet kernel.store vmap.virtualBase 0#8 vmap.physicalSize
  let fileOffset ← readField kernel 64 (prgHeader + 8#64)
  let fileSize ← readField kernel 64 (prgHeader + 32#64)
  memoryCopy kernel.load kernel.store (binary + fileOffset) (vmap.virtualBase + fileOffset % 0x1000#64)
    (toInt32 fileSize.toNat)
  let readOnly ← isReadOnly kernel prgHeader
  let vaddr ← readField kernel 64 (prgHeader + 16#64)
  kernel.spaceMap vmap.physicalBase (vaddr &&& ~~~0xfff#64) (size / 0x1000#32) ⟨user, !readOnly⟩
  kernel.spaceMap vmap.physicalBase vmap.virtualBase (size / 0x1000#32) ⟨false, true⟩

/-- What the loop of `load_elf` does with one header, and where the next one stands. -/
def loadProgram (header binary : W64) (user : Bool) (prgHeader : W64) : m W64 := do
  let type ← readField kernel 32 prgHeader
  if type = segmentTypeLoad then
    loadSegment kernel binary user prgHeader
    let programsSize ← readField kernel 16 (header + 54#64)
    return prgHeader + programsSize.setWidth 64
  else
    let programsSize ← readField kernel 16 (header + 54#64)
    return prgHeader + programsSize.setWidth 64

/-- The loop of `load_elf` from its `i`-th iteration on. The count is a 16-bit field, so
    that the loop ends within the `fuel` of `load_elf`. -/
def loadPrograms (header binary : W64) (user : Bool) (i : Nat) (prgHeader : W64) : (fuel : Nat) → m Unit
  | 0 => pure ()
  | fuel + 1 => do
    let programsCount ← readField kernel 16 (header + 56#64)
    if i < programsCount.toNat then
      let prgHeader ← loadProgram kernel header binary user prgHeader
      loadPrograms header binary user (i + 1) prgHeader fuel
    else return ()

def loadElf (header binary : W64) (user : Bool) : m Unit := do
  let programOffset ← readField kernel 64 (header + 32#64)
  loadPrograms kernel header binary user 0 (header + programOffset) (2 ^ 16)

/-- The test of the two bytes behind the magic. The error message prints them, so they are
    both read again when it fails. -/
def isSupported (binary : W64) : m Bool := do
  let elfMode ← kernel.load (binary + 4#64)
  if elfMode = elf64Bit then
    let endianType ← kernel.load (binary + 5#64)
    return endianType == elfLittleEndian
  else
    let _ ← kernel.load (binary + 5#64)
    return false

def loadBinary (binary : W64) (user : Bool) : m Unit := do
  let isElf ← elfCheck kernel binary
  if isElf then
    let supported ← isSupported kernel binary
    if supported then
      kernel.newTask user
      loadElf kernel binary binary user
      let entryPoint ← readField kernel 64 (binary + 24#64)
      kernel.schedStart entryPoint
    else return ()
  else return ()

end

end Neutrino.Loader
