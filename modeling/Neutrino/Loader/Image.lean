import Neutrino.Loader.Bounds
import Neutrino.Virtual.Series

namespace Neutrino.Loader

open Library
open Virtual (Frame PageNumber Core VmmM pageSize blockAt pageNumber frameAddress frameOf slotOf recurseActive
  getPl4Index directories plain walk IsTable Family Tidy Stock Edits Room Names Maps Written Shown runByte runAddress
  readByte storeByte vmmMapPage vmmAllocateMemory pageKernelWrite)

/-- The machine on which a file is loaded. `series` holds the first frames of the series that the
    physical allocator hands out next. -/
structure Host where
  machine : Virtual.Machine
  series : List Frame

abbrev HostM := StateT Host Option

def Host.core (h : Host) : Core := h.machine.core

def onMachine {α : Type} (code : VmmM α) : HostM α := fun h =>
  (code h.machine).map fun done => (done.1, { h with machine := done.2 })

/-- The allocator's next answer is a series. -/
def offerSeries : HostM Unit := fun h =>
  match h.series with
  | [] => none
  | f :: rest => some ((), ⟨h.machine.withSupply (f :: h.core.supply), rest⟩)

def memoryAllocate (size : W32) : HostM VirtualMapping := do
  offerSeries
  let vaddr ← onMachine (vmmAllocateMemory 0#64 (size / 0x1000#32 + 1#32).toNat pageKernelWrite)
  (List.range size.toNat).forM fun i => onMachine (storeByte (vaddr + BitVec.ofNat 64 i) 0#8)
  return ⟨getRmemAddress vaddr, size, vaddr⟩

/-- The list of the space's ranges, which `space_map` adds to, is left out. -/
def spaceMap (pageTable physAddr virtAddr : W64) (size : W32) (flags : MappingFlags) : HostM Unit :=
  (List.range size.toNat).forM fun i => onMachine (vmmMapPage pageTable (blockAt physAddr i) (blockAt virtAddr i)
    ⟨flags.mapWritable, flags.mapUser, false⟩)

/-- The kernel that loads a file into the space of `pageTable`. The file is read where it stands,
    and no region is there. -/
def hosted (file : ByteMemory) (binary pageTable : W64) : Kernel HostM where
  load address := pure (file (address - binary))
  store address byte := onMachine (storeByte address byte)
  memoryAllocate := memoryAllocate
  spaceMap := spaceMap pageTable
  newTask _ := pure ()
  schedStart _ := pure ()

section Reads

variable {file : ByteMemory} {binary pageTable : W64} {user : Bool}

theorem readBytes_hosted (offset : W64) (count : Nat) :
    readBytes (hosted file binary pageTable) (binary + offset) count = pure (Library.load file offset count) := by
  induction count generalizing offset with
  | zero => rfl
  | succ count ih =>
    have first : (hosted file binary pageTable).load (binary + offset) = pure (file offset) := by
      show pure (file (binary + offset - binary)) = pure (file offset)
      rw [BitVec.add_comm, BitVec.add_sub_cancel]
    rw [readBytes, first, pure_bind, BitVec.add_assoc, ih, pure_bind, load_succ]
    rfl

theorem readField_hosted (width : Nat) (offset : W64) :
    readField (hosted file binary pageTable) width (binary + offset) = pure (field file width offset) := by
  rw [readField, readBytes_hosted, map_pure]
  rfl

theorem isReadOnly_hosted (header : W64) :
    isReadOnly (hosted file binary pageTable) (binary + header) = pure (readOnlyField file header) := by
  simp only [isReadOnly, BitVec.add_assoc, readField_hosted, pure_bind, readOnlyField, fileSize, memSize]
  split
  · next holds => simp [holds, Bool.beq_eq_decide_eq]
  · next fails => simp [fails]

instance (header : W64) : Decidable (IsLoad file header) :=
  inferInstanceAs (Decidable (field file 32 header = segmentTypeLoad))

/-- The `PT_LOAD` headers of a file, by their offsets and in their order. -/
def loads (file : ByteMemory) : List W64 :=
  ((List.range (programsCount file)).map (programHeader file)).filter fun header => IsLoad file header

def vaddr (file : ByteMemory) (header : W64) : W64 := field file 64 (header + 16#64)

/-- What `load_elf` does with a `PT_LOAD` header, once its fields are read. -/
def placeSegment (file : ByteMemory) (binary pageTable : W64) (user : Bool) (header : W64) : HostM Unit := do
  let vmap ← memoryAllocate (segmentSize (memSize file header) (fileSize file header))
  memorySet (hosted file binary pageTable).store vmap.virtualBase 0#8 vmap.physicalSize
  memoryCopy (hosted file binary pageTable).load (hosted file binary pageTable).store (binary + fileOffset file header)
    (vmap.virtualBase + fileOffset file header % 0x1000#64) (toInt32 (fileSize file header).toNat)
  spaceMap pageTable vmap.physicalBase (vaddr file header &&& ~~~0xfff#64)
    (segmentSize (memSize file header) (fileSize file header) / 0x1000#32) ⟨user, !readOnlyField file header⟩
  spaceMap pageTable vmap.physicalBase vmap.virtualBase
    (segmentSize (memSize file header) (fileSize file header) / 0x1000#32) ⟨false, true⟩

theorem loadSegment_hosted (header : W64) :
    loadSegment (hosted file binary pageTable) binary user (binary + header) =
      placeSegment file binary pageTable user header := by
  simp only [loadSegment, BitVec.add_assoc, readField_hosted, pure_bind, isReadOnly_hosted]
  rfl

theorem loadProgram_hosted (header : W64) :
    loadProgram (hosted file binary pageTable) binary binary user (binary + header) = (do
      if IsLoad file header then placeSegment file binary pageTable user header
      return binary + (header + (field file 16 54#64).setWidth 64)) := by
  simp only [loadProgram, readField_hosted, pure_bind, loadSegment_hosted, BitVec.add_assoc]
  by_cases loads : IsLoad file header
  · rw [if_pos (show field file 32 header = segmentTypeLoad from loads), if_pos loads]
  · rw [if_neg (show ¬ field file 32 header = segmentTypeLoad from loads), if_neg loads]

theorem loadPrograms_hosted (i fuel : Nat) (left : i + fuel = 2 ^ 16) (early : i ≤ programsCount file) :
    loadPrograms (hosted file binary pageTable) binary binary user i (binary + programHeader file i) fuel =
      (((List.range' i (programsCount file - i)).map (programHeader file)).filter fun header => IsLoad file header).forM
        (placeSegment file binary pageTable user) := by
  have below := @programsCount_lt file
  induction fuel generalizing i with
  | zero => omega
  | succ fuel ih =>
    simp only [loadPrograms, readField_hosted, pure_bind]
    by_cases more : i < programsCount file
    · obtain ⟨count, counted⟩ : ∃ count, programsCount file - i = count + 1 := ⟨programsCount file - i - 1, by omega⟩
      rw [if_pos (show i < (field file 16 56#64).toNat from more), loadProgram_hosted, counted, List.range'_succ,
        List.map_cons, programHeader_succ]
      have rest := ih (i + 1) (by omega) more
      rw [show programsCount file - (i + 1) = count by omega] at rest
      by_cases loads : IsLoad file (programHeader file i)
      · rw [List.filter_cons_of_pos (by simpa using loads)]
        simp only [if_pos loads, bind_assoc, pure_bind, rest]
        rfl
      · rw [List.filter_cons_of_neg (by simpa using loads)]
        simp only [if_neg loads, pure_bind, rest]
    · rw [if_neg (show ¬ i < (field file 16 56#64).toNat from more), show programsCount file - i = 0 by omega]
      rfl

theorem loadElf_hosted : loadElf (hosted file binary pageTable) binary binary user =
    (loads file).forM (placeSegment file binary pageTable user) := by
  have start : binary + field file 64 32#64 = binary + programHeader file 0 := by
    simp [programHeader]
  rw [loadElf, readField_hosted, pure_bind, start, loadPrograms_hosted 0 (2 ^ 16) rfl (Nat.zero_le _), loads,
    List.range_eq_range']
  rfl

end Reads

end Neutrino.Loader
