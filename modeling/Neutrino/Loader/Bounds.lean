import Mathlib.Logic.Function.Basic
import Neutrino.Library.Audit
import Neutrino.Loader.Model

namespace Neutrino.Loader

open Library

/-- One byte read, or one byte written while a region was the latest handed out. -/
inductive Access where
  | read (address : W64)
  | write (address : W64) (region : Option VirtualMapping)
  deriving DecidableEq, Repr

structure Machine where
  memory : ByteMemory
  mappings : List VirtualMapping
  accesses : List Access
  tasks : Nat

/-- The kernel under observation: `place` is where each `memory_allocate` finds its pages.
    It clears the region itself; only what the loader does is recorded. -/
def watched (place : Nat → W32 → W64) : Kernel (Logging Machine.accesses) where
  load address := ⟨fun s => (s.memory address, { s with accesses := .read address :: s.accesses }),
    fun _ => List.suffix_cons _ _⟩
  store address byte := ⟨fun s => ((), { s with
      memory := Function.update s.memory address byte
      accesses := .write address s.mappings.head? :: s.accesses }),
    fun _ => List.suffix_cons _ _⟩
  memoryAllocate size := ⟨fun s =>
      let vaddr := place s.mappings.length size
      let vmap : VirtualMapping := ⟨getRmemAddress vaddr, size, vaddr⟩
      (vmap, { s with
        memory := store s.memory vaddr (List.replicate size.toNat 0#8)
        mappings := vmap :: s.mappings }),
    fun _ => List.suffix_refl _⟩
  spaceMap _ _ _ _ := pure ()
  newTask _ := ⟨fun s => ((), { s with tasks := s.tasks + 1 }), fun _ => List.suffix_refl _⟩
  schedStart _ := pure ()

/-- A read is of one of the `n` bytes of the binary, a write inside its region. -/
def Access.Confined (binary : W64) (n : Nat) : Access → Prop
  | .read address => (address - binary).toNat < n
  | .write address region =>
    ∃ vmap ∈ region, (address - vmap.virtualBase).toNat < vmap.physicalSize.toNat

instance (binary : W64) (n : Nat) (access : Access) : Decidable (access.Confined binary n) :=
  match access with
  | .read address => inferInstanceAs (Decidable ((address - binary).toNat < n))
  | .write address region =>
    match region with
    | none => isFalse (by simp [Access.Confined])
    | some vmap => decidable_of_iff ((address - vmap.virtualBase).toNat < vmap.physicalSize.toNat)
        (by simp [Access.Confined])

/-- No region that `memory_allocate` hands out holds a byte of the binary. -/
def Apart (binary : W64) (n : Nat) (place : Nat → W32 → W64) : Prop :=
  ∀ count size j, j < size.toNat → n ≤ (place count size + BitVec.ofNat 64 j - binary).toNat

/-- The machine that finds a binary in memory. -/
def boot (memory : ByteMemory) : Machine := ⟨memory, [], [], 0⟩

/-- All of so many bytes from an offset on stand in the first `n`. -/
def Inside (n : Nat) (offset : W64) (count : Nat) : Prop :=
  ∀ k < count, (offset + BitVec.ofNat 64 k).toNat < n

instance (n : Nat) (offset : W64) (count : Nat) : Decidable (Inside n offset count) :=
  inferInstanceAs (Decidable (∀ k < count, (offset + BitVec.ofNat 64 k).toNat < n))

theorem inside_add (n : Nat) (offset : W64) (first rest : Nat) :
    Inside n offset (first + rest) ↔ Inside n offset first ∧ Inside n (offset + BitVec.ofNat 64 first) rest := by
  simp only [Inside, BitVec.add_assoc, ← BitVec.ofNat_add]
  constructor
  · intro all
    exact ⟨fun k below => all k (by omega), fun k below => all (first + k) (by omega)⟩
  · rintro ⟨here, later⟩ k below
    by_cases early : k < first
    · exact here k early
    · have far := later (k - first) (by omega)
      rwa [Nat.add_sub_of_le (Nat.le_of_not_lt early)] at far

theorem inside_one (n : Nat) (offset : W64) : Inside n offset 1 ↔ offset.toNat < n := by
  simp [Inside, Nat.mod_eq_of_lt offset.isLt]

theorem inside_iff (n offset count : Nat) (some : 0 < count) (small : offset + count ≤ 2 ^ 64) :
    Inside n (BitVec.ofNat 64 offset) count ↔ offset + count ≤ n := by
  have place : ∀ k < count, (BitVec.ofNat 64 offset + BitVec.ofNat 64 k).toNat = offset + k := by
    intro k below
    rw [← BitVec.ofNat_add, BitVec.toNat_ofNat, Nat.mod_eq_of_lt (by omega)]
  constructor
  · intro all
    have last := all (count - 1) (by omega)
    rw [place _ (by omega)] at last
    omega
  · intro fits k below
    rw [place k below]
    omega

section Fields

variable (file : ByteMemory)

def field (width : Nat) (offset : W64) : BitVec width := BitVec.ofNat width (ofLe (load file offset (width / 8)))

def programsCount : Nat := (field file 16 56#64).toNat
def programHeader (i : Nat) : W64 :=
  field file 64 32#64 + BitVec.ofNat 64 i * (field file 16 54#64).setWidth 64

def IsElf : Prop := load file 0#64 4 = elfMagic
def IsSupported : Prop := IsElf file ∧ file 4#64 = elf64Bit ∧ file 5#64 = elfLittleEndian

def IsLoad (header : W64) : Prop := field file 32 header = segmentTypeLoad
def fileOffset (header : W64) : W64 := field file 64 (header + 8#64)
def fileSize (header : W64) : W64 := field file 64 (header + 32#64)
def memSize (header : W64) : W64 := field file 64 (header + 40#64)

/-- How many bytes `memory_copy` makes of the file size it is given. -/
def copied (header : W64) : Nat := (toInt32 (fileSize file header).toNat).toNat

def regionSize (header : W64) : Nat := (segmentSize (memSize file header) (fileSize file header)).toNat

end Fields

/-- The rest of a `PT_LOAD` header and the bytes of its segment stand in the file, and the
    copy ends within the region. -/
structure SegmentContained (file : ByteMemory) (n : Nat) (header : W64) : Prop where
  fields : Inside n (header + 4#64) 20 ∧ Inside n (header + 32#64) 16
  source : Inside n (fileOffset file header) (copied file header)
  target : 0 < copied file header →
    (fileOffset file header % 0x1000#64).toNat + copied file header ≤ regionSize file header

/-- The headers and segments of a file of `n` bytes stand inside it, as far as the fields
    before them let the loader come, and no copy is longer than its region. -/
structure SelfContained (file : ByteMemory) (n : Nat) : Prop where
  magic : ∀ i < 4, load file 0#64 i = elfMagic.take i → i < n
  ident : IsElf file → 6 ≤ n
  header : IsSupported file → 58 ≤ n
  types : IsSupported file → ∀ i < programsCount file, Inside n (programHeader file i) 4
  segments : IsSupported file → ∀ i < programsCount file, IsLoad file (programHeader file i) →
    SegmentContained file n (programHeader file i)

/-- A settled state has the file in place, and the current regions. -/
def audit (binary : W64) (n : Nat) (file : ByteMemory) (current : List VirtualMapping → Prop) :
    Audit Machine.accesses where
  allows := Access.Confined binary n
  settled s := (∀ offset : W64, offset.toNat < n → s.memory (binary + offset) = file offset) ∧
    current s.mappings

section Observed

variable {place : Nat → W32 → W64} {binary : W64} {n : Nat} {file : ByteMemory}
  {current : List VirtualMapping → Prop} {s : Machine}

theorem load_passes (good : (audit binary n file current).Good s) (offset : W64) :
    (audit binary n file current).Passes s ((watched place).load (binary + offset)) (offset.toNat < n)
      (file offset) := by
  obtain ⟨clean, placed, region⟩ := good
  have back : binary + offset - binary = offset := by rw [BitVec.add_comm, BitVec.add_sub_cancel]
  constructor
  · intro inside
    refine ⟨⟨?_, placed, region⟩, placed offset inside⟩
    refine List.forall_mem_cons.mpr ⟨?_, clean⟩
    show (binary + offset - binary).toNat < n
    rwa [back]
  · intro recorded
    have inside : (binary + offset - binary).toNat < n := recorded _ List.mem_cons_self
    rwa [back] at inside

theorem readBytes_passes (good : (audit binary n file current).Good s) (offset : W64) (count : Nat) :
    (audit binary n file current).Passes s (readBytes (watched place) (binary + offset) count)
      (Inside n offset count) (load file offset count) := by
  induction count generalizing s offset with
  | zero => exact (Audit.Passes.pure good).congr (by simp [Inside])
  | succ count ih =>
    have first : (offset.toNat < n ∧ Inside n (offset + 1#64) count ∧ True) ↔
        Inside n offset (count + 1) := by
      rw [and_true, Nat.add_comm, inside_add, inside_one]
    refine Audit.Passes.congr ?_ first
    rw [load_succ]
    refine (load_passes good offset).bind fun s' _ good' => ?_
    rw [BitVec.add_assoc]
    exact (ih good' _).bind fun s'' _ good'' => .pure good''

theorem readField_passes (good : (audit binary n file current).Good s) (width : Nat) (offset : W64) :
    (audit binary n file current).Passes s (readField (watched place) width (binary + offset))
      (Inside n offset (width / 8)) (field file width offset) :=
  (readBytes_passes good offset _).map _

/-- A region that holds no byte of the binary. -/
def Clear (binary : W64) (n : Nat) (vmap : VirtualMapping) : Prop :=
  ∀ j < vmap.physicalSize.toNat, n ≤ (vmap.virtualBase + BitVec.ofNat 64 j - binary).toNat

variable {vmap : VirtualMapping}

section

variable (clear : Clear binary n vmap) (good : (audit binary n file (·.head? = some vmap)).Good s)
include clear good

theorem store_passes (j : Nat) (small : j < 2 ^ 64) (byte : Byte) : (audit binary n file (·.head? = some vmap)).Passes s
      ((watched place).store (vmap.virtualBase + BitVec.ofNat 64 j) byte)
      (j < vmap.physicalSize.toNat) () := by
  obtain ⟨clean, placed, region⟩ := good
  have confined : (Access.write (vmap.virtualBase + BitVec.ofNat 64 j) s.mappings.head?).Confined binary n ↔
      j < vmap.physicalSize.toNat := by
    have back : (vmap.virtualBase + BitVec.ofNat 64 j - vmap.virtualBase).toNat = j := by
      rw [BitVec.add_comm, BitVec.add_sub_cancel, BitVec.toNat_ofNat, Nat.mod_eq_of_lt small]
    simp only [Access.Confined, region, Option.mem_def, Option.some_inj, exists_eq_left', back]
  constructor
  · intro inside
    refine ⟨⟨List.forall_mem_cons.mpr ⟨confined.mpr inside, clean⟩, ?_, region⟩, rfl⟩
    intro offset within
    -- a byte of the binary at the written address would stand in the region
    have other : binary + offset ≠ vmap.virtualBase + BitVec.ofNat 64 j := by
      intro same
      have far := clear j inside
      rw [← same, BitVec.add_comm, BitVec.add_sub_cancel] at far
      omega
    show Function.update s.memory _ byte (binary + offset) = file offset
    rw [Function.update_of_ne other, placed offset within]
  · intro recorded
    exact confined.mp (recorded _ List.mem_cons_self)

theorem memorySet_passes (val : Byte) : (audit binary n file (·.head? = some vmap)).Passes s
      (memorySet (watched place).store vmap.virtualBase val vmap.physicalSize) True () := by
  have body : ∀ j ∈ List.range vmap.physicalSize.toNat, ∀ s',
      (audit binary n file (·.head? = some vmap)).Good s' →
      (audit binary n file (·.head? = some vmap)).Passes s'
        ((watched place).store (vmap.virtualBase + BitVec.ofNat 64 j) val)
        (j < vmap.physicalSize.toNat) () := by
    intro j member s' good'
    have below := List.mem_range.mp member
    exact store_passes clear good' j (by omega) val
  exact (Audit.Passes.forM good body).congr (iff_true_intro fun j member => List.mem_range.mp member)

theorem memoryCopy_passes (source : W64) (shift : W64) (nbytes : Nat) (small : shift.toNat + nbytes < 2 ^ 64) :
    (audit binary n file (·.head? = some vmap)).Passes s
      (memoryCopy (watched place).load (watched place).store (binary + source) (vmap.virtualBase + shift) nbytes)
      (Inside n source nbytes ∧ (0 < nbytes → shift.toNat + nbytes ≤ vmap.physicalSize.toNat)) () := by
  have body : ∀ j ∈ List.range nbytes, ∀ s', (audit binary n file (·.head? = some vmap)).Good s' →
      (audit binary n file (·.head? = some vmap)).Passes s' (do
        let byte ← (watched place).load (binary + source + BitVec.ofNat 64 j)
        (watched place).store (vmap.virtualBase + shift + BitVec.ofNat 64 j) byte)
      ((source + BitVec.ofNat 64 j).toNat < n ∧ shift.toNat + j < vmap.physicalSize.toNat) () := by
    intro j member s' good'
    have below := List.mem_range.mp member
    have target : vmap.virtualBase + shift + BitVec.ofNat 64 j =
        vmap.virtualBase + BitVec.ofNat 64 (shift.toNat + j) := by
      rw [BitVec.ofNat_add, BitVec.ofNat_toNat, BitVec.setWidth_eq, BitVec.add_assoc]
    rw [target, BitVec.add_assoc]
    refine (load_passes good' _).bind fun s'' _ good'' => ?_
    exact store_passes clear good'' _ (by omega) _
  refine (Audit.Passes.forM good body).congr ?_
  simp only [List.mem_range, Inside]
  constructor
  · intro all
    refine ⟨fun k within => (all k within).1, fun some => ?_⟩
    have last := (all (nbytes - 1) (by omega)).2
    omega
  · rintro ⟨inside, fits⟩ k within
    exact ⟨inside k within, by have := fits (by omega); omega⟩

end

theorem memoryAllocate_passes {β : Type} {size : W32} {next : VirtualMapping → Logging Machine.accesses β}
    {rest : Prop} {final : β} (apart : Apart binary n place)
    (good : (audit binary n file fun _ => True).Good s)
    (step : ∀ vmap s', vmap.physicalSize = size → Clear binary n vmap →
      (audit binary n file (·.head? = some vmap)).Good s' →
      (audit binary n file (·.head? = some vmap)).Passes s' (next vmap) rest final) :
    (audit binary n file fun _ => True).Passes s ((watched place).memoryAllocate size >>= next) rest final := by
  obtain ⟨clean, placed, -⟩ := good
  have clear : Clear binary n ((watched place).memoryAllocate size |>.run s).1 :=
    fun j below => apart _ _ j below
  have good' : (audit binary n file (·.head? = some ((watched place).memoryAllocate size |>.run s).1)).Good
      ((watched place).memoryAllocate size |>.run s).2 := by
    refine ⟨clean, fun offset within => ?_, rfl⟩
    have outside : size.toNat ≤ (binary + offset - place s.mappings.length size).toNat := by
      by_contra inside
      have far := apart s.mappings.length size _ (Nat.lt_of_not_le inside)
      rw [BitVec.ofNat_toNat, BitVec.setWidth_eq] at far
      have same : place s.mappings.length size + (binary + offset - place s.mappings.length size) - binary =
          offset := by bv_omega
      rw [same] at far
      omega
    show store s.memory _ _ (binary + offset) = file offset
    rw [store, List.getElem?_eq_none (by simpa using outside), Option.getD_none, placed offset within]
  exact (step _ _ rfl clear good').weaken rfl fun _ settled => ⟨settled.1, trivial⟩

theorem copied_lt (header : W64) : copied file header < 2 ^ 31 := by
  have below : toInt32 (fileSize file header).toNat < (2 ^ 32 + 1) / 2 := Int.bmod_lt (by decide)
  simp only [copied]
  omega

theorem fields_inside (n : Nat) (header : W64) :
    (Inside n (header + 4#64) 20 ∧ Inside n (header + 32#64) 16) ↔
      (Inside n (header + 4#64) 4 ∧ Inside n (header + 8#64) 8 ∧ Inside n (header + 16#64) 8) ∧
        Inside n (header + 32#64) 8 ∧ Inside n (header + 40#64) 8 := by
  have words : Inside n (header + 4#64) 20 ↔ Inside n (header + 4#64) 4 ∧
      Inside n (header + 8#64) 8 ∧ Inside n (header + 16#64) 8 := by
    rw [show 20 = 4 + (8 + 8) from rfl, inside_add, inside_add, BitVec.add_assoc, BitVec.add_assoc]
    rfl
  have sizes : Inside n (header + 32#64) 16 ↔ Inside n (header + 32#64) 8 ∧ Inside n (header + 40#64) 8 := by
    rw [show 16 = 8 + 8 from rfl, inside_add, BitVec.add_assoc]
    rfl
  rw [words, sizes]

def readOnlyField (file : ByteMemory) (header : W64) : Bool :=
  field file 32 (header + 4#64) &&& segmentFlagsWritable = 0#32 ∧ fileSize file header = memSize file header

theorem isReadOnly_passes (good : (audit binary n file current).Good s) (header : W64)
    (sizes : Inside n (header + 32#64) 8 ∧ Inside n (header + 40#64) 8) :
    (audit binary n file current).Passes s (isReadOnly (watched place) (binary + header))
      (Inside n (header + 4#64) 4) (readOnlyField file header) := by
  simp only [isReadOnly, BitVec.add_assoc]
  by_cases writable : field file 32 (header + 4#64) &&& segmentFlagsWritable = 0#32
  · have chain : (Inside n (header + 4#64) 4 ∧ Inside n (header + 32#64) 8 ∧ Inside n (header + 40#64) 8 ∧ True) ↔
        Inside n (header + 4#64) 4 := by simp [sizes]
    refine Audit.Passes.congr (Audit.Passes.bind (readField_passes good 32 _) ?_) chain
    intro s _ good
    rw [if_pos writable]
    refine Audit.Passes.bind (readField_passes good 64 _) ?_
    intro s _ good
    refine Audit.Passes.bind (readField_passes good 64 _) ?_
    intro s _ good
    have value : readOnlyField file header = (field file 64 (header + 32#64) == field file 64 (header + 40#64)) := by
      simp [readOnlyField, writable, fileSize, memSize, Bool.beq_eq_decide_eq]
    rw [value]
    exact .pure good
  · refine Audit.Passes.congr (Audit.Passes.bind (readField_passes good 32 _) ?_) (iff_of_eq (and_true _))
    intro s _ good
    have value : readOnlyField file header = false := by simp [readOnlyField, writable]
    rw [if_neg writable, value]
    exact .pure good

theorem loadSegment_passes (apart : Apart binary n place) (good : (audit binary n file fun _ => True).Good s)
    (user : Bool) (header : W64) :
    (audit binary n file fun _ => True).Passes s (loadSegment (watched place) binary user (binary + header))
      (SegmentContained file n header) () := by
  have chain : (Inside n (header + 40#64) 8 ∧ Inside n (header + 32#64) 8 ∧ True ∧
      Inside n (header + 8#64) 8 ∧ Inside n (header + 32#64) 8 ∧
      (Inside n (fileOffset file header) (copied file header) ∧ (0 < copied file header →
        (fileOffset file header % 0x1000#64).toNat + copied file header ≤ regionSize file header)) ∧
      Inside n (header + 4#64) 4 ∧ Inside n (header + 16#64) 8 ∧ True ∧ True) ↔
      SegmentContained file n header := by
    constructor
    · rintro ⟨h40, h32, -, h8, -, ⟨source, target⟩, h4, h16, -⟩
      exact ⟨(fields_inside n header).mpr ⟨⟨h4, h8, h16⟩, h32, h40⟩, source, target⟩
    · rintro ⟨inside, source, target⟩
      obtain ⟨⟨h4, h8, h16⟩, h32, h40⟩ := (fields_inside n header).mp inside
      exact ⟨h40, h32, trivial, h8, h32, ⟨source, target⟩, h4, h16, trivial, trivial⟩
  refine Audit.Passes.congr ?_ chain
  simp only [loadSegment, BitVec.add_assoc]
  refine Audit.Passes.bind (readField_passes good 64 _) ?_
  intro s inside40 good
  refine Audit.Passes.bind (readField_passes good 64 _) ?_
  intro s _ good
  refine memoryAllocate_passes apart good ?_
  intro vmap s sized clear good
  refine Audit.Passes.bind (memorySet_passes clear good 0#8) ?_
  intro s _ good
  refine Audit.Passes.bind (readField_passes good 64 _) ?_
  intro s _ good
  refine Audit.Passes.bind (readField_passes good 64 _) ?_
  intro s inside32 good
  have inPage : (fileOffset file header % 0x1000#64).toNat < 4096 := by
    rw [BitVec.toNat_umod]
    exact Nat.mod_lt _ (by decide)
  have short := @copied_lt file header
  have copy := @memoryCopy_passes place binary n file _ vmap clear good (fileOffset file header)
    (fileOffset file header % 0x1000#64) (copied file header) (by omega)
  rw [sized] at copy
  rw [memoryCopy_toNat]
  refine Audit.Passes.bind copy ?_
  intro s _ good
  refine Audit.Passes.bind (isReadOnly_passes good header ⟨inside32, inside40⟩) ?_
  intro s _ good
  refine Audit.Passes.bind (readField_passes good 64 _) ?_
  intro s _ good
  refine Audit.Passes.bind (Audit.Passes.pure good) ?_
  intro s _ good
  exact Audit.Passes.pure good

/-- What the loop asks of one header. -/
def ProgramContained (file : ByteMemory) (n : Nat) (header : W64) : Prop :=
  Inside n header 4 ∧ (IsLoad file header → SegmentContained file n header) ∧ Inside n 54#64 2

theorem loadProgram_passes (apart : Apart binary n place) (good : (audit binary n file fun _ => True).Good s)
    (user : Bool) (header : W64) :
    (audit binary n file fun _ => True).Passes s (loadProgram (watched place) binary binary user (binary + header))
      (ProgramContained file n header) (binary + (header + (field file 16 54#64).setWidth 64)) := by
  rw [← BitVec.add_assoc]
  by_cases loads : IsLoad file header
  · have chain : (Inside n header 4 ∧ SegmentContained file n header ∧ Inside n 54#64 2 ∧ True) ↔
        ProgramContained file n header := by simp [ProgramContained, loads]
    refine Audit.Passes.congr (Audit.Passes.bind (readField_passes good 32 _) ?_) chain
    intro s _ good
    rw [if_pos (show field file 32 header = segmentTypeLoad from loads)]
    refine Audit.Passes.bind (loadSegment_passes apart good user header) ?_
    intro s _ good
    refine Audit.Passes.bind (readField_passes good 16 _) ?_
    intro s _ good
    exact .pure good
  · have chain : (Inside n header 4 ∧ Inside n 54#64 2 ∧ True) ↔ ProgramContained file n header := by
      simp [ProgramContained, loads]
    refine Audit.Passes.congr (Audit.Passes.bind (readField_passes good 32 _) ?_) chain
    intro s _ good
    rw [if_neg (show ¬ field file 32 header = segmentTypeLoad from loads)]
    refine Audit.Passes.bind (readField_passes good 16 _) ?_
    intro s _ good
    exact .pure good

theorem programHeader_succ (i : Nat) :
    programHeader file i + (field file 16 54#64).setWidth 64 = programHeader file (i + 1) := by
  simp only [programHeader, BitVec.ofNat_add, BitVec.add_mul, BitVec.add_assoc, BitVec.one_mul]

theorem programsCount_lt : programsCount file < 2 ^ 16 := (field file 16 56#64).isLt

theorem loadPrograms_passes (apart : Apart binary n place) (user : Bool) (i fuel : Nat)
    (left : i + fuel = 2 ^ 16) (early : i ≤ programsCount file)
    (good : (audit binary n file fun _ => True).Good s) :
    (audit binary n file fun _ => True).Passes s
      (loadPrograms (watched place) binary binary user i (binary + programHeader file i) fuel)
      (Inside n 56#64 2 ∧ ∀ j, i ≤ j → j < programsCount file → ProgramContained file n (programHeader file j))
      () := by
  have below := @programsCount_lt file
  induction fuel generalizing i s with
  | zero => omega
  | succ fuel ih =>
    refine Audit.Passes.bind (readField_passes good 16 _) ?_
    intro s counted good
    by_cases more : i < programsCount file
    · have chain : (ProgramContained file n (programHeader file i) ∧ Inside n 56#64 2 ∧
          ∀ j, i + 1 ≤ j → j < programsCount file → ProgramContained file n (programHeader file j)) ↔
          ∀ j, i ≤ j → j < programsCount file → ProgramContained file n (programHeader file j) := by
        constructor
        · rintro ⟨first, -, rest⟩ j from' upto
          rcases Nat.eq_or_lt_of_le from' with rfl | later
          · exact first
          · exact rest j later upto
        · intro all
          exact ⟨all i (Nat.le_refl i) more, counted, fun j from' => all j (by omega)⟩
      rw [if_pos (show i < (field file 16 56#64).toNat from more)]
      refine Audit.Passes.congr (Audit.Passes.bind (loadProgram_passes apart good user _) ?_) chain
      intro s _ good
      rw [programHeader_succ]
      exact ih (i + 1) (by omega) more good
    · rw [if_neg (show ¬ i < (field file 16 56#64).toNat from more)]
      refine (Audit.Passes.pure good).congr (iff_of_true trivial ?_)
      intro j from' upto
      omega

theorem loadElf_passes (apart : Apart binary n place) (good : (audit binary n file fun _ => True).Good s)
    (user : Bool) :
    (audit binary n file fun _ => True).Passes s (loadElf (watched place) binary binary user)
      (Inside n 32#64 8 ∧ Inside n 56#64 2 ∧
        ∀ i < programsCount file, ProgramContained file n (programHeader file i)) () := by
  refine Audit.Passes.bind (readField_passes good 64 _) ?_
  intro s _ good
  have loop := loadPrograms_passes apart user 0 (2 ^ 16) rfl (Nat.zero_le _) good
  simp only [programHeader, BitVec.zero_mul, BitVec.add_zero, Nat.zero_le, forall_true_left] at loop
  exact loop

/-- What `strncmp` gives for the characters of a file from an offset on. -/
def order (file : ByteMemory) (offset : W64) : List Byte → Int
  | [] => 0
  | c :: cs => if file offset = c then order file (offset + 1#64) cs else (file offset).toNat - c.toNat

theorem order_eq_zero (offset : W64) (cs : List Byte) :
    order file offset cs = 0 ↔ load file offset cs.length = cs := by
  induction cs generalizing offset with
  | nil => simp [order, load]
  | cons c cs ih =>
    rw [order, List.length_cons, load_succ, List.cons.injEq]
    split
    · next same => simpa [same] using ih (offset + 1#64)
    · next other =>
      have apart' : (file offset).toNat ≠ c.toNat := fun same => other (BitVec.eq_of_toNat_eq same)
      simp only [other, false_and, iff_false]
      omega

theorem strncmp_passes (good : (audit binary n file current).Good s) (offset : W64) (cs : List Byte)
    (nonzero : ∀ c ∈ cs, c ≠ 0#8) :
    (audit binary n file current).Passes s (strncmp (watched place) (binary + offset) cs)
      (∀ i < cs.length, load file offset i = cs.take i → (offset + BitVec.ofNat 64 i).toNat < n)
      (order file offset cs) := by
  induction cs generalizing s offset with
  | nil => exact (Audit.Passes.pure good).congr (by simp)
  | cons c cs ih =>
    have further : (∀ i < (c :: cs).length, load file offset i = (c :: cs).take i →
        (offset + BitVec.ofNat 64 i).toNat < n) ↔ offset.toNat < n ∧ (file offset = c →
          ∀ i < cs.length, load file (offset + 1#64) i = cs.take i →
            (offset + 1#64 + BitVec.ofNat 64 i).toNat < n) := by
      have shift : ∀ i, offset + 1#64 + BitVec.ofNat 64 i = offset + BitVec.ofNat 64 (i + 1) := by
        intro i
        rw [BitVec.ofNat_add, BitVec.add_assoc, BitVec.add_comm 1#64]
      simp only [shift]
      constructor
      · intro all
        refine ⟨by simpa [load, Nat.mod_eq_of_lt offset.isLt] using all 0 (by simp), fun same i below agree => ?_⟩
        refine all (i + 1) (by simpa using below) ?_
        rw [load_succ, List.take_succ_cons, same]
        exact congrArg (c :: ·) agree
      · rintro ⟨here, later⟩ (_ | i) below agree
        · simpa [Nat.mod_eq_of_lt offset.isLt] using here
        · rw [load_succ, List.take_succ_cons, List.cons.injEq] at agree
          exact later agree.1 i (by simpa using below) agree.2
    rw [further, order]
    by_cases same : file offset = c
    · have other : file offset ≠ 0#8 := by
        rw [same]
        exact nonzero c List.mem_cons_self
      simp only [same, forall_true_left, if_true]
      refine Audit.Passes.bind (load_passes good offset) ?_
      intro s _ good
      rw [if_pos ⟨other, same⟩, BitVec.add_assoc]
      exact ih good _ fun c member => nonzero c (List.mem_cons_of_mem _ member)
    · have chain : (offset.toNat < n ∧ offset.toNat < n ∧ True) ↔ offset.toNat < n ∧ (file offset = c →
          ∀ i < cs.length, load file (offset + 1#64) i = cs.take i →
            (offset + 1#64 + BitVec.ofNat 64 i).toNat < n) := by simp [same]
      rw [if_neg same]
      refine Audit.Passes.congr (Audit.Passes.bind (load_passes good offset) ?_) chain
      intro s _ good
      rw [if_neg (fun both => same both.2)]
      refine Audit.Passes.bind (load_passes good offset) ?_
      intro s _ good
      exact .pure good

instance : Decidable (IsElf file) := inferInstanceAs (Decidable (load file 0#64 4 = elfMagic))

theorem elfCheck_passes (good : (audit binary n file current).Good s) :
    (audit binary n file current).Passes s (elfCheck (watched place) binary)
      (∀ i < 4, load file 0#64 i = elfMagic.take i → i < n) (decide (IsElf file)) := by
  have whole : (order file 0#64 elfMagic == 0) = decide (IsElf file) := by
    rw [Bool.beq_eq_decide_eq, decide_eq_decide]
    exact order_eq_zero 0#64 elfMagic
  have compare := @strncmp_passes place binary n file current s good 0#64 elfMagic (by decide)
  rw [BitVec.add_zero] at compare
  rw [← whole]
  refine Audit.Passes.congr (Audit.Passes.bind compare ?_) (iff_of_eq (and_true _) |>.trans ?_)
  · intro s _ good
    exact .pure good
  · have place : ∀ i < 4, (0#64 + BitVec.ofNat 64 i).toNat = i := by decide
    exact forall_congr' fun i => forall_congr' fun below => by rw [place i below]

theorem isSupported_passes (good : (audit binary n file current).Good s) :
    (audit binary n file current).Passes s (isSupported (watched place) binary) (6 ≤ n)
      (file 4#64 = elf64Bit ∧ file 5#64 = elfLittleEndian : Bool) := by
  have chain : ((4#64).toNat < n ∧ (5#64).toNat < n ∧ True) ↔ 6 ≤ n := by
    rw [and_true]
    show 4 < n ∧ 5 < n ↔ 6 ≤ n
    omega
  refine Audit.Passes.congr (Audit.Passes.bind (load_passes good _) ?_) chain
  intro s _ good
  by_cases wide : file 4#64 = elf64Bit
  · rw [if_pos wide]
    refine Audit.Passes.bind (load_passes good _) ?_
    intro s _ good
    simp only [wide, true_and, ← Bool.beq_eq_decide_eq]
    exact .pure good
  · rw [if_neg wide]
    refine Audit.Passes.bind (load_passes good _) ?_
    intro s _ good
    simp only [wide, false_and, decide_false]
    exact .pure good

theorem newTask_passes (good : (audit binary n file current).Good s) (user : Bool) :
    (audit binary n file current).Passes s ((watched place).newTask user) True () :=
  ⟨fun _ => ⟨good, rfl⟩, fun _ => trivial⟩

theorem loadBinary_passes (apart : Apart binary n place) (good : (audit binary n file fun _ => True).Good s)
    (user : Bool) :
    (audit binary n file fun _ => True).Passes s (loadBinary (watched place) binary user)
      (SelfContained file n) () := by
  by_cases elf : IsElf file
  swap
  · -- any other file is left after the magic
    have chain : ((∀ i < 4, load file 0#64 i = elfMagic.take i → i < n) ∧ True) ↔ SelfContained file n := by
      constructor
      · rintro ⟨magic, -⟩
        exact ⟨magic, fun is => absurd is elf, fun is => absurd is.1 elf, fun is => absurd is.1 elf,
          fun is => absurd is.1 elf⟩
      · intro contained
        exact ⟨contained.magic, trivial⟩
    refine Audit.Passes.congr (Audit.Passes.bind (elfCheck_passes good) ?_) chain
    intro s _ good
    rw [if_neg (by simpa using elf)]
    exact .pure good
  by_cases supported : file 4#64 = elf64Bit ∧ file 5#64 = elfLittleEndian
  swap
  · have chain : ((∀ i < 4, load file 0#64 i = elfMagic.take i → i < n) ∧ 6 ≤ n ∧ True) ↔
        SelfContained file n := by
      constructor
      · rintro ⟨magic, ident, -⟩
        exact ⟨magic, fun _ => ident, fun is => absurd is.2 supported, fun is => absurd is.2 supported,
          fun is => absurd is.2 supported⟩
      · intro contained
        exact ⟨contained.magic, contained.ident elf, trivial⟩
    refine Audit.Passes.congr (Audit.Passes.bind (elfCheck_passes good) ?_) chain
    intro s _ good
    rw [if_pos (by simpa using elf)]
    refine Audit.Passes.bind (isSupported_passes good) ?_
    intro s _ good
    rw [if_neg (by simpa using supported)]
    exact .pure good
  have chain : ((∀ i < 4, load file 0#64 i = elfMagic.take i → i < n) ∧ 6 ≤ n ∧ True ∧
      (Inside n 32#64 8 ∧ Inside n 56#64 2 ∧
        ∀ i < programsCount file, ProgramContained file n (programHeader file i)) ∧
      Inside n 24#64 8 ∧ True) ↔ SelfContained file n := by
    have end58 : Inside n 56#64 2 ↔ 58 ≤ n := inside_iff n 56 2 (by decide) (by decide)
    have end40 : Inside n 32#64 8 ↔ 40 ≤ n := inside_iff n 32 8 (by decide) (by decide)
    have end32 : Inside n 24#64 8 ↔ 32 ≤ n := inside_iff n 24 8 (by decide) (by decide)
    have end56 : Inside n 54#64 2 ↔ 56 ≤ n := inside_iff n 54 2 (by decide) (by decide)
    constructor
    · rintro ⟨magic, ident, -, ⟨-, counted, programs⟩, -⟩
      exact ⟨magic, fun _ => ident, fun _ => end58.mp counted, fun _ i below => (programs i below).1,
        fun _ i below => (programs i below).2.1⟩
    · intro contained
      have long := contained.header ⟨elf, supported⟩
      refine ⟨contained.magic, contained.ident elf, trivial, ⟨end40.mpr (by omega), end58.mpr long, ?_⟩,
        end32.mpr (by omega), trivial⟩
      intro i below
      exact ⟨contained.types ⟨elf, supported⟩ i below, contained.segments ⟨elf, supported⟩ i below,
        end56.mpr (by omega)⟩
  refine Audit.Passes.congr (Audit.Passes.bind (elfCheck_passes good) ?_) chain
  intro s _ good
  rw [if_pos (by simpa using elf)]
  refine Audit.Passes.bind (isSupported_passes good) ?_
  intro s _ good
  rw [if_pos (by simpa using supported)]
  refine Audit.Passes.bind (newTask_passes good user) ?_
  intro s _ good
  refine Audit.Passes.bind (loadElf_passes apart good user) ?_
  intro s _ good
  refine Audit.Passes.bind (readField_passes good 64 _) ?_
  intro s _ good
  exact .pure good

end Observed

/-- What `load_binary` has done when it returns. -/
def loaded (place : Nat → W32 → W64) (memory : ByteMemory) (binary : W64) (user : Bool) : Machine :=
  ((loadBinary (watched place) binary user).run (boot memory)).2

/-- The file of which a byte stands at each offset from `binary`. -/
def fileAt (memory : ByteMemory) (binary : W64) : ByteMemory := fun offset => memory (binary + offset)

/-- Every byte `load_binary` and what it calls read or write is one of the file's or region's. -/
def StaysInside (place : Nat → W32 → W64) (memory : ByteMemory) (binary : W64) (n : Nat) (user : Bool) : Prop :=
  ∀ access ∈ (loaded place memory binary user).accesses, access.Confined binary n

/-- No length is passed to the loader: it stays in the file when the file's own fields keep
    it there, and in its regions when each segment ends in its first pages. -/
theorem loader_confined_iff (place : Nat → W32 → W64) (memory : ByteMemory) (binary : W64) (n : Nat)
    (user : Bool) (apart : Apart binary n place) :
    StaysInside place memory binary n user ↔ SelfContained (fileAt memory binary) n := by
  have good : (audit binary n (fileAt memory binary) fun _ => True).Good (boot memory) :=
    ⟨fun access member => absurd member List.not_mem_nil, fun _ _ => rfl, trivial⟩
  exact (loadBinary_passes apart good user).clean_iff

/-- An ELF header for `count` program headers from `programOffset` on, with nothing else set. -/
def elfHeader (programOffset count : Nat) : List Byte :=
  elfMagic ++ [elf64Bit, elfLittleEndian] ++ List.replicate 26 0 ++ le 8 programOffset ++
    List.replicate 14 0 ++ le 2 56 ++ le 2 count ++ List.replicate 6 0

/-- A `PT_LOAD` header for `size` bytes of the file. -/
def loadHeader (fileOffset vaddr size : Nat) : List Byte :=
  le 4 1 ++ le 4 5 ++ le 8 fileOffset ++ le 8 vaddr ++ le 8 0 ++ le 8 size ++ le 8 size ++ le 8 0x1000

/-- A file alone in memory at an address. -/
def alone (binary : W64) (bytes : List Byte) : ByteMemory := store (fun _ => 0#8) binary bytes

/-- A file of one segment, its 8 bytes behind the two headers. -/
def smallElf : List Byte := elfHeader 64 1 ++ loadHeader 120 0x400078 8 ++ List.replicate 8 0x90#8

theorem loader_confined_small :
    StaysInside (fun _ _ => 0x200000#64) (alone 0x1000#64 smallElf) 0x1000#64 128 true := by
  have apart : Apart 0x1000#64 128 fun _ _ => 0x200000#64 := by
    intro _ size j below
    bv_omega
  refine (loader_confined_iff _ _ _ _ true apart).mpr ?_
  have one : programsCount (fileAt (alone 0x1000#64 smallElf) 0x1000#64) = 1 := by decide +kernel
  refine ⟨by decide, fun _ => by decide, fun _ => by decide, fun _ i below => ?_, fun _ i below _ => ?_⟩
  all_goals
    obtain rfl : i = 0 := by omega
  · decide +kernel
  · exact ⟨by decide +kernel, by decide +kernel, by decide +kernel⟩

/-- A file of 64 bytes that places its program header a megabyte further on: the header is
    read there, for a task that has been made. -/
theorem header_read_outside :
    Apart 0x1000#64 64 (fun _ _ => 0x200000#64) ∧
    (loaded (fun _ _ => 0x200000#64) (alone 0x1000#64 (elfHeader 0x100000 1)) 0x1000#64 true).tasks = 1 ∧
    ¬ StaysInside (fun _ _ => 0x200000#64) (alone 0x1000#64 (elfHeader 0x100000 1)) 0x1000#64 64 true := by
  have run : (loaded (fun _ _ => 0x200000#64) (alone 0x1000#64 (elfHeader 0x100000 1)) 0x1000#64 true).tasks = 1 ∧
      Access.read 0x101000#64 ∈
        (loaded (fun _ _ => 0x200000#64) (alone 0x1000#64 (elfHeader 0x100000 1)) 0x1000#64 true).accesses := by
    decide +kernel
  refine ⟨?_, run.1, fun confined => ?_⟩
  · intro _ size j below
    bv_omega
  · exact absurd (confined _ run.2) (by decide)

end Neutrino.Loader
