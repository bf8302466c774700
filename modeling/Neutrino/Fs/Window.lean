import Neutrino.Fs.RoundTrip
import Neutrino.Machine.Common

namespace Neutrino.Fs

open Library

/-- The stores made so far, and the memory after them. -/
abbrev Written := List (W64 × Byte) × ByteMemory

def loadByte (address : W64) : StateM Written Byte := fun s => (s.2 address, s)

def storeByte (address : W64) (byte : Byte) : StateM Written Unit :=
  fun s => ((), s.1 ++ [(address, byte)], Function.update s.2 address byte)

/-- The fields of the header of a file that `initrd_read` uses. -/
def headerOffset (fs : Initrd) (node : FsNode) : W64 :=
  BitVec.ofNat 64 (ofLe (load fs.mem (headerAt fs.fileHeaders node.inode.toNat offsetField) 8))

def headerLength (fs : Initrd) (node : FsNode) : W32 :=
  BitVec.ofNat 32 (ofLe (load fs.mem (headerAt fs.fileHeaders node.inode.toNat lengthField) 4))

/-- `initrd_read` with the buffer in the same memory: what it returns, the stores it makes and the
    memory after them. -/
def initrdReadInto (fs : Initrd) (node : FsNode) (offset size : W32) (buffer : W64) :
    W32 × List (W64 × Byte) × ByteMemory :=
  if offset > headerLength fs node then (0, [], fs.mem)
  else
    let size := if offset + size > headerLength fs node then headerLength fs node - offset else size
    (size, (memoryCopy loadByte storeByte (headerOffset fs node + offset.setWidth 64) buffer size.toInt ([], fs.mem)).2)

def fsReadInto (fs : Initrd) (node : NodeRef) (offset size : W32) (buffer : W64) :
    Option (W32 × List (W64 × Byte) × ByteMemory) :=
  (fs.node node).map fun file =>
    if file.read then initrdReadInto fs file offset size buffer else (0, [], fs.mem)

section Window

variable {fs : Initrd} {node : FsNode} {offset size : W32} {buffer : W64}

/-- The bytes of the file from `offset` on. -/
def fileByte (fs : Initrd) (node : FsNode) (offset : W32) (k : Nat) : Byte :=
  fs.mem (headerOffset fs node + offset.setWidth 64 + BitVec.ofNat 64 k)

/-- How far the buffer lies behind the first byte that is read. -/
def ahead (fs : Initrd) (node : FsNode) (offset : W32) (buffer : W64) : Nat :=
  (buffer - (headerOffset fs node + offset.setWidth 64)).toNat

def windowSize (fs : Initrd) (node : FsNode) (offset size : W32) : Nat :=
  if offset.toNat ≤ (headerLength fs node).toNat then
    min size.toNat ((headerLength fs node).toNat - offset.toNat)
  else 0

/-- The read returns the number of bytes in its window, stores just these at the buffer, and leaves
    all other memory as it was. -/
structure HonoursWindow (fs : Initrd) (node : FsNode) (offset size : W32) (buffer : W64)
    (answer : W32 × List (W64 × Byte) × ByteMemory) : Prop where
  returned : answer.1.toNat = windowSize fs node offset size
  stores : answer.2.1 = (List.range (windowSize fs node offset size)).map fun k =>
    (buffer + BitVec.ofNat 64 k, fileByte fs node offset k)
  memory : ∀ x, answer.2.2 x = if (x - buffer).toNat < windowSize fs node offset size then
    fileByte fs node offset (x - buffer).toNat else fs.mem x

/-- The request starts behind the end of the file, or its end is a 32-bit number, the window is no
    longer than an `int` counts, and the copy does not come upon bytes it has changed. -/
def WindowFits (fs : Initrd) (node : FsNode) (offset size : W32) (buffer : W64) : Prop :=
  (headerLength fs node).toNat < offset.toNat ∨
    offset.toNat + size.toNat < 2 ^ 32 ∧ windowSize fs node offset size < 2 ^ 31 ∧
      ∀ k < windowSize fs node offset size,
        fileByte fs node offset (k % ahead fs node offset buffer) = fileByte fs node offset k

theorem memoryCopy_eq {source : W64} {mem : ByteMemory} {count : Nat} (small : count ≤ 2 ^ 64) :
    memoryCopy loadByte storeByte source buffer count ([], mem) = ((), (List.range count).map fun k =>
      (buffer + BitVec.ofNat 64 k, mem (source + BitVec.ofNat 64 (k % (buffer - source).toNat))),
      copiedTo mem source buffer count) := by
  induction count with
  | zero => rfl
  | succ count ih =>
    have before := ih (by omega)
    rw [memoryCopy_succ, List.range_succ, List.map_append, List.map_singleton, ← copiedTo_succ mem (by omega),
      ← copiedTo_source mem (by omega)]
    show (loadByte _ >>= storeByte _) (memoryCopy loadByte storeByte source buffer count ([], mem)).2 = _
    rw [before]
    rfl

theorem memoryCopy_negative {source : W64} {mem : ByteMemory} {nbytes : Int} (negative : nbytes < 0) :
    memoryCopy loadByte storeByte source buffer nbytes ([], mem) = ((), [], mem) := by
  rw [memoryCopy, Int.toNat_of_nonpos (Int.le_of_lt negative)]
  rfl

theorem initrdReadInto_past (past : (headerLength fs node).toNat < offset.toNat) :
    HonoursWindow fs node offset size buffer (initrdReadInto fs node offset size buffer) := by
  have empty : windowSize fs node offset size = 0 := if_neg (Nat.not_le.mpr past)
  have beyond : offset > headerLength fs node := past
  rw [initrdReadInto, if_pos beyond]
  constructor
  · rw [empty]
    rfl
  · rw [empty]
    rfl
  · intro x
    rw [empty]
    rfl

theorem initrdReadInto_within (within : offset.toNat ≤ (headerLength fs node).toNat) :
    initrdReadInto fs node offset size buffer =
      ((if offset + size > headerLength fs node then headerLength fs node - offset else size),
        (memoryCopy loadByte storeByte (headerOffset fs node + offset.setWidth 64) buffer
          (if offset + size > headerLength fs node then headerLength fs node - offset else size).toInt ([], fs.mem)).2) :=
  if_neg (Nat.not_lt.mpr within)

theorem wrapped_size {length : W32} (within : offset.toNat ≤ length.toNat) (wraps : 2 ^ 32 ≤ offset.toNat + size.toNat) :
    (if offset + size > length then length - offset else size) = size := by
  have sum : (offset + size).toNat = offset.toNat + size.toNat - 2 ^ 32 := by
    have left := offset.isLt
    have right := size.isLt
    rw [BitVec.toNat_add]
    omega
  have bound := size.isLt
  apply if_neg
  rw [gt_iff_lt, BitVec.lt_def, sum]
  omega

section

variable (within : offset.toNat ≤ (headerLength fs node).toNat)
include within

theorem windowSize_within :
    windowSize fs node offset size = min size.toNat ((headerLength fs node).toNat - offset.toNat) := if_pos within

theorem initrdReadInto_honours (sum : offset.toNat + size.toNat < 2 ^ 32)
    (short : windowSize fs node offset size < 2 ^ 31) :
    HonoursWindow fs node offset size buffer (initrdReadInto fs node offset size buffer) ↔
      ∀ k < windowSize fs node offset size,
        fileByte fs node offset (k % ahead fs node offset buffer) = fileByte fs node offset k := by
  have count := clamped_size within sum
  rw [← windowSize_within within] at count
  rw [initrdReadInto_within within]
  generalize (if offset + size > headerLength fs node then headerLength fs node - offset else size) = copied at count
  have nbytes : copied.toInt = ((windowSize fs node offset size : Nat) : Int) := by
    rw [BitVec.toInt_eq_toNat_of_lt (by omega), count]
  rw [nbytes, memoryCopy_eq (by omega)]
  constructor
  · intro honours k inside
    have stores := congrArg (·[k]?) honours.stores
    simp only [List.getElem?_map, List.getElem?_range inside, Option.map_some, Option.some_inj, Prod.mk.injEq] at stores
    exact stores.2
  · intro same
    refine ⟨count, ?_, ?_⟩
    · apply List.map_congr_left
      intro k member
      exact congrArg _ (same k (List.mem_range.mp member))
    · intro x
      show copiedTo _ _ _ _ x = _
      rw [copiedTo]
      split
      · rename_i inside
        exact same _ inside
      · rfl

theorem initrdReadInto_long (sum : offset.toNat + size.toNat < 2 ^ 32) (long : 2 ^ 31 ≤ windowSize fs node offset size) :
    ¬ HonoursWindow fs node offset size buffer (initrdReadInto fs node offset size buffer) := by
  have count := clamped_size within sum
  rw [← windowSize_within within] at count
  rw [initrdReadInto_within within]
  generalize (if offset + size > headerLength fs node then headerLength fs node - offset else size) = copied at count
  have negative : copied.toInt < 0 := by
    have bound := copied.isLt
    rw [BitVec.toInt_eq_toNat_cond, if_neg (by omega)]
    omega
  rw [memoryCopy_negative negative]
  intro honours
  have none := congrArg List.length honours.stores
  rw [List.length_map, List.length_range] at none
  change 0 = _ at none
  omega

theorem initrdReadInto_wraps (wraps : 2 ^ 32 ≤ offset.toNat + size.toNat) :
    ¬ HonoursWindow fs node offset size buffer (initrdReadInto fs node offset size buffer) := by
  rw [initrdReadInto_within within, wrapped_size within wraps]
  intro honours
  have returned := honours.returned
  have bound := (headerLength fs node).isLt
  rw [windowSize_within within] at returned
  change size.toNat = _ at returned
  omega

end

theorem initrdReadInto_iff : HonoursWindow fs node offset size buffer (initrdReadInto fs node offset size buffer) ↔
    WindowFits fs node offset size buffer := by
  by_cases past : (headerLength fs node).toNat < offset.toNat
  · exact ⟨fun _ => .inl past, fun _ => initrdReadInto_past past⟩
  · have within := Nat.not_lt.mp past
    rw [WindowFits, or_iff_right past]
    by_cases sum : offset.toNat + size.toNat < 2 ^ 32
    · by_cases short : windowSize fs node offset size < 2 ^ 31
      · rw [initrdReadInto_honours within sum short]
        exact ⟨fun same => ⟨sum, short, same⟩, fun fits => fits.2.2⟩
      · refine ⟨fun honours => absurd honours ?_, fun fits => absurd fits.2.1 short⟩
        exact initrdReadInto_long within sum (Nat.not_lt.mp short)
    · refine ⟨fun honours => absurd honours ?_, fun fits => absurd fits.1 sum⟩
      exact initrdReadInto_wraps within (Nat.not_lt.mp sum)

theorem initrdRead_eq (fits : WindowFits fs node offset size buffer) :
    initrdRead fs node offset size = ((initrdReadInto fs node offset size buffer).1,
      (initrdReadInto fs node offset size buffer).2.1.map Prod.snd) := by
  have honours := initrdReadInto_iff.mpr fits
  rcases fits with past | ⟨sum, short, -⟩
  · have beyond : offset > headerLength fs node := past
    rw [initrdReadInto, if_pos beyond]
    exact if_pos beyond
  · by_cases past : offset > headerLength fs node
    · rw [initrdReadInto, if_pos past]
      exact if_pos past
    · have within : offset.toNat ≤ (headerLength fs node).toNat := Nat.not_lt.mp past
      have count := clamped_size within sum
      rw [← windowSize_within within] at count
      rw [honours.stores, List.map_map, initrdReadInto_within within]
      refine (if_neg past).trans ?_
      show (_, load _ _ (BitVec.toInt (if offset + size > headerLength fs node then headerLength fs node - offset
        else size)).toNat) = _
      rw [BitVec.toInt_eq_toNat_of_lt (by omega), Int.toNat_natCast, count]
      rfl

theorem initrd_read_window_iff (fs : Initrd) (node : FsNode) (offset size : W32) (buffer : W64) :
    (HonoursWindow fs node offset size buffer (initrdReadInto fs node offset size buffer) ↔
      WindowFits fs node offset size buffer) ∧
    ∀ ref, fs.node ref = some node → node.read = true → ∃ answer, fsReadInto fs ref offset size buffer = some answer ∧
      (HonoursWindow fs node offset size buffer answer ↔ WindowFits fs node offset size buffer) := by
  refine ⟨initrdReadInto_iff, ?_⟩
  intro ref here reads
  refine ⟨initrdReadInto fs node offset size buffer, ?_, initrdReadInto_iff⟩
  rw [fsReadInto, here, Option.map_some, if_pos reads]

end Window

/-- A file of five bytes at 0x2000, with its header at 0x1000. -/
def fiveBytes : Initrd where
  mem x := if x = 0x1050 then 5 else if x = 0x1049 then 0x20 else if x &&& 0xf000 = 0x2000 then x.setWidth 8 + 0x41 else 0
  fileHeaders := 0x1000
  initrdRoot := directoryNode initrdName
  initrdDev := directoryNode devName
  rootNodes := [⟨[0x66], fsFile, 5, 0, true, false, false⟩]
  nrootNodes := 1

def fiveBytesNode : FsNode := ⟨[0x66], fsFile, 5, 0, true, false, false⟩

theorem initrd_read_window_five : ∃ answer, fsReadInto fiveBytes (.file 0) 2 9 0x3000 = some answer ∧
    HonoursWindow fiveBytes fiveBytesNode 2 9 0x3000 answer := by
  have fits : WindowFits fiveBytes fiveBytesNode 2 9 0x3000 := by
    unfold WindowFits
    decide
  have window := (initrd_read_window_iff fiveBytes fiveBytesNode 2 9 0x3000).2 (.file 0) rfl rfl
  obtain ⟨answer, taken, honours⟩ := window
  exact ⟨answer, taken, honours.mpr fits⟩

/-- The sum of offset and size wraps, and the size is negative as an `int`. -/
theorem wrapped_read_reports_too_much :
    (initrdReadInto fiveBytes fiveBytesNode 1 0xffffffff 0x3000).1 = 0xffffffff ∧
      (initrdReadInto fiveBytes fiveBytesNode 1 0xffffffff 0x3000).2.1 = [] ∧
      windowSize fiveBytes fiveBytesNode 1 0xffffffff = 4 := by
  decide

end Neutrino.Fs
