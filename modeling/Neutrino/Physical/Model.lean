import Neutrino.Library.WordBitmap
import Neutrino.Machine.Word

namespace Neutrino.Physical

open Library

inductive MemoryPhysicalRegionType
  | usable | reserved | kernel | framebuffer | acpiRsvd | acpiRclm | invalid
  deriving DecidableEq, Repr

structure MemoryPhysicalRegion where
  base : W64
  size : W64
  limit : W64
  type : MemoryPhysicalRegionType
  deriving DecidableEq, Repr

/-- `struct memory_physical`. The words reached through `pmm._map` are a field of their own;
    they include what lies in front of and behind the bitmap, since the code indexes both. -/
structure Pmm where
  totalMemory : W64
  usableMemory : W64
  totalBlocks : W64
  usableBlocks : W64
  usedBlocks : W64
  regions : List MemoryPhysicalRegion
  map : W64
  mapSize : W64
  words : WordBitmap 32

def physmem2Megs : W64 := 0x200000#64

def align (x : W64) : W64 := x / 0x1000#64

/-- `BLOCKPOSITION_INVALID`. -/
def blockPositionInvalid : Int := -1

-- The index is a signed `int`: `/` and `%` truncate, and the shift count of a negative
-- remainder is taken modulo 32, as the processor does.
def wordIndex (bit : Int) : Int := bit.tdiv 32
def bitPosition (bit : Int) : Nat := ((bit.tmod 32) % 32).toNat

def pmmMapSet (p : Pmm) (bit : Int) : Pmm :=
  { p with words := p.words.setAt (wordIndex bit) (bitPosition bit) }

def pmmMapUnset (p : Pmm) (bit : Int) : Pmm :=
  { p with words := p.words.clearAt (wordIndex bit) (bitPosition bit) }

/-- `BlockState` is `bool`, which this repository defines as `uint8_t`: the masked word is
    narrowed to its low eight bits. -/
def pmmMapGet (p : Pmm) (bit : Int) : BitVec 8 :=
  (p.words (wordIndex bit) &&& (1#32 <<< bitPosition bit)).setWidth 8

/-- The words `i = from_block .. total_blocks/32 - 1` in order. -/
def scanWords (p : Pmm) (fromBlock : Nat) : List Nat :=
  List.range' fromBlock (p.totalBlocks.toNat / 32 - fromBlock)

def pmmMapFirstFreeStartingFrom (p : Pmm) (fromBlock : Nat) : Int :=
  ((scanWords p fromBlock).findSome? fun (i : Nat) =>
    if p.words i ≠ 0xffffffff#32 then
      (List.range 32).findSome? fun (j : Nat) =>
        if p.words i &&& (1#32 <<< j) = 0#32 then some ((i * 4 * 8 + j : Nat) : Int) else none
    else none).getD blockPositionInvalid

def pmmMapFirstFree (p : Pmm) : Int :=
  let freeFromStart := pmmMapFirstFreeStartingFrom p 0
  if freeFromStart ≠ -1 then freeFromStart else blockPositionInvalid

/-- The innermost loop of the series search, with `remaining` iterations left. The count of
    free bits is not reset by a used one. -/
def seriesProbe (p : Pmm) (size startingBit : Nat) : (remaining count free : Nat) → Bool
  | 0, _, _ => false
  | remaining + 1, count, free =>
    let free := if pmmMapGet p (toInt32 ((startingBit + count : Nat) : Int)) = 0#8
      then free + 1 else free
    if free = size then true else seriesProbe p size startingBit remaining (count + 1) free

def pmmMapFirstFreeSeriesStartingFrom (p : Pmm) (size fromBlock : Nat) : Int :=
  ((scanWords p fromBlock).findSome? fun (i : Nat) =>
    if p.words i ≠ 0xffffffff#32 then
      (List.range 32).findSome? fun (j : Nat) =>
        if p.words i &&& (1#32 <<< j) = 0#32 ∧
            seriesProbe p size ((i * 32 + j) % 2 ^ 32) (size + 1) 0 0 = true
        then some ((i * 4 * 8 + j : Nat) : Int) else none
    else none).getD blockPositionInvalid

/-- The word index the series search starts from: the block number of the end of the bitmap. -/
def blockAfterMap (p : Pmm) : Nat :=
  (getRmemAddress (p.map + p.mapSize) / 0x1000#64).toNat

def pmmMapFirstFreeSeries (p : Pmm) (size : Nat) : Int :=
  if size = 0 then -1
  else if size = 1 then pmmMapFirstFree p
  else
    let freeAfterMap := pmmMapFirstFreeSeriesStartingFrom p size (blockAfterMap p)
    if freeAfterMap ≠ blockPositionInvalid then freeAfterMap
    else
      let freeFromStart := pmmMapFirstFreeSeriesStartingFrom p size 0
      if freeFromStart ≠ blockPositionInvalid then freeFromStart else -1

def pmmUpdateBlocks (p : Pmm) (usedBlockIncrement : W32) : Pmm :=
  { p with
    usedBlocks := p.usedBlocks + usedBlockIncrement.setWidth 64
    usableBlocks := p.usableBlocks - usedBlockIncrement.setWidth 64 }

/-- `blocks` further iterations of the loop in `pmm_mark_region_used`. -/
def markUsedLoop : (blocks : Nat) → Int → Pmm → Pmm
  | 0, _, p => p
  | blocks + 1, block, p =>
    markUsedLoop blocks (toInt32 (block + 1)) (pmmUpdateBlocks (pmmMapSet p block) 1#32)

def pmmMarkRegionUsed (p : Pmm) (baseAddr : W64) (size : W32) : Pmm :=
  markUsedLoop (size / 0x1000#32).toNat (toInt32 (align baseAddr).toNat) p

/-- `pmm_get_region_by_type`: the first region of the type, and the first of all if there
    is none. -/
def pmmGetRegionByType (regions : List MemoryPhysicalRegion) (type : MemoryPhysicalRegionType) :
    MemoryPhysicalRegion :=
  (regions.find? (fun region => region.type = type)).getD (regions.headD ⟨0, 0, 0, .invalid⟩)

/-- `memory_set(_map, 0, len)` on the words of the bitmap: byte `k` is byte `k % 4` of
    word `k / 4`. -/
def zeroBytes (len : Nat) (words : WordBitmap 32) : WordBitmap 32 :=
  (List.range len).foldl (fun words k =>
    Function.update words ((k / 4 : Nat) : Int)
      (words ((k / 4 : Nat) : Int) &&& ~~~(0xff#32 <<< (8 * (k % 4))))) words

/-- One iteration of the first loop of `init_pmm`. -/
def placeMap (p : Pmm) (entry : MemoryPhysicalRegion) : Pmm :=
  let p := if entry.type = .usable ∧ p.map = 0#64 ∧ p.mapSize ≤ entry.size ∧
      physmem2Megs ≤ entry.base
    then { p with
      map := getMemAddress entry.base
      words := zeroBytes (p.mapSize.setWidth 32).toNat p.words }
    else p
  if entry.type = .usable then { p with usableMemory := p.usableMemory + entry.size } else p

def markUnusable (p : Pmm) (entry : MemoryPhysicalRegion) : Pmm :=
  if entry.type ≠ .usable then pmmMarkRegionUsed p entry.base (entry.size.setWidth 32) else p

/-- The fields `init_pmm` fills in before its first loop. The structure is a zeroed global, and
    `prior` is what memory holds at the place the bitmap is put. -/
def pmmBeforeLoops (entries : List MemoryPhysicalRegion) (prior : WordBitmap 32) : Pmm :=
  let totalMemory := (entries.getLastD ⟨0, 0, 0, .invalid⟩).limit -
    (entries.headD ⟨0, 0, 0, .invalid⟩).base - (pmmGetRegionByType entries .framebuffer).size
  let totalBlocks := totalMemory / 0x1000#64
  { totalMemory, totalBlocks, usableMemory := 0, usableBlocks := 0, usedBlocks := 0
    regions := entries, map := 0, mapSize := totalBlocks / 32#64, words := prior }

def initPmm (entries : List MemoryPhysicalRegion) (prior : WordBitmap 32) : Pmm :=
  let p := entries.foldl placeMap (pmmBeforeLoops entries prior)
  let p := { p with usableBlocks := p.usableMemory / 0x1000#64 }
  let p := pmmMarkRegionUsed p (getRmemAddress p.map) (p.mapSize.setWidth 32)
  let p := pmmMapSet p 0
  entries.foldl markUnusable p

/-- `none` stands for `pmm_fatal`, which does not return. -/
def pmmAlloc (p : Pmm) : Option (W64 × Pmm) :=
  if p.usableBlocks ≤ p.usedBlocks then none
  else
    let block : W32 := BitVec.ofInt 32 (pmmMapFirstFree p)
    if block = 0xffffffff#32 then none
    else some ((block * 0x1000#32).setWidth 64,
      pmmUpdateBlocks (pmmMapSet p (toInt32 block.toNat)) 1#32)

def pmmFree (p : Pmm) (addr : W64) : Pmm :=
  let block : W32 := addr.setWidth 32 / 0x1000#32
  pmmUpdateBlocks (pmmMapUnset p (toInt32 block.toNat)) (-1#32)

/-- The loops `for (i=0; i<size; i++)` over `block + i`, `count` iterations left. -/
def setSeries (block : W32) : (count : Nat) → W32 → Pmm → Pmm
  | 0, _, p => p
  | count + 1, i, p => setSeries block count (i + 1) (pmmMapSet p (toInt32 (block + i).toNat))

def unsetSeries (block : W32) : (count : Nat) → W32 → Pmm → Pmm
  | 0, _, p => p
  | count + 1, i, p => unsetSeries block count (i + 1) (pmmMapUnset p (toInt32 (block + i).toNat))

def pmmAllocSeries (p : Pmm) (size : W32) : Option (W64 × Pmm) :=
  if p.usableBlocks ≤ p.usedBlocks + size.setWidth 64 then none
  else
    let block : W32 := BitVec.ofInt 32 (pmmMapFirstFreeSeries p size.toNat)
    if block = 0xffffffff#32 then none
    else some ((block * 0x1000#32).setWidth 64,
      pmmUpdateBlocks (setSeries block size.toNat 0 p) size)

def pmmFreeSeries (p : Pmm) (addr : W64) (size : W32) : Pmm :=
  let block : W32 := addr.setWidth 32 / 0x1000#32
  pmmUpdateBlocks (unsetSeries block size.toNat 0 p) (-size)

end Neutrino.Physical
