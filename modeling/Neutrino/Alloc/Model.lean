import Neutrino.Library.Partial
import Neutrino.Library.Records
import Neutrino.Machine.Word

namespace Neutrino.Alloc

open Library

-- The fields of `AllocMajor` and `AllocMinor` by their offsets. Both take 40 bytes.

namespace Major

def pages : Nat := 0
def size : Nat := 4
def usage : Nat := 8
def prev : Nat := 16
def next : Nat := 24
def first : Nat := 32

end Major

namespace Minor

def magic : Nat := 0
def size : Nat := 4
def reqSize : Nat := 8
def prev : Nat := 16
def next : Nat := 24
def block : Nat := 32

end Minor

def allocMarkerMagic : W32 := 0xc001c0de#32
def allocMarkerDead : W32 := 0xdeaddead#32

/-- The memory and the variables of the allocator. `pages` holds what `liballoc_alloc` answers next,
    `asked` the page counts that it was called with and `returned` the calls of `liballoc_free`. -/
structure Liballoc where
  mem : ByteMemory
  memRoot : W64
  bestBet : W64
  locked : Bool
  pages : List W64
  asked : List W32
  returned : List (W64 × W32)
  allocated : W64
  inuse : W64

/-- A lock that is taken twice and a loop whose iterations run out end the run. -/
abbrev AllocM := StateT Liballoc Option

def read (w : Nat) (p : W64) (field : Nat) : AllocM (BitVec w) := fun s =>
  some (fetch w s.mem (p + BitVec.ofNat 64 field), s)

def write {w : Nat} (p : W64) (field : Nat) (v : BitVec w) : AllocM Unit := fun s =>
  some ((), { s with mem := put s.mem (p + BitVec.ofNat 64 field) v })

abbrev read32 := read 32
abbrev read64 := read 64
abbrev write32 := @write 32
abbrev write64 := @write 64

def liballocLock : AllocM Unit := fun s => if s.locked then none else some ((), { s with locked := true })

def liballocUnlock : AllocM Unit := modify fun s => { s with locked := false }

/-- The pointer stays null when there is no answer. -/
def liballocAlloc (pages : W32) : AllocM W64 := fun s =>
  some (s.pages.headD 0#64, { s with pages := s.pages.tail, asked := s.asked ++ [pages] })

def liballocFree (address : W64) (pages : W32) : AllocM Unit :=
  modify fun s => { s with returned := s.returned ++ [(address, pages)] }

/-- The macro `ALIGN`. -/
def align (ptr : W64) : AllocM W64 := do
  let ptr := ptr + 16#64
  let diff := ptr &&& 15#64
  let diff := if diff ≠ 0#64 then 16#64 - diff else diff
  let ptr := ptr + diff
  modify fun s => { s with mem := put s.mem (ptr - 16#64) ((diff + 16#64).setWidth 8) }
  return ptr

/-- The macro `UNALIGN`. The `char` it reads is signed. -/
def unalign (ptr : W64) : AllocM W64 := do
  let diff := (fetch 8 (← get).mem (ptr - 16#64)).signExtend 64
  return if diff < 32#64 then ptr - diff else ptr

def allocNewPage (size : W32) : AllocM W64 := do
  let st := size + 80#32
  let st := if st % 0x1000#32 = 0#32 then st / 0x1000#32 else st / 0x1000#32 + 1#32
  let st := if st < 16#32 then 16#32 else st
  let maj ← liballocAlloc st
  if maj = 0#64 then return 0#64
  write64 maj Major.prev 0#64
  write64 maj Major.next 0#64
  write32 maj Major.pages st
  write32 maj Major.size (st * 0x1000#32)
  write32 maj Major.usage 40#32
  write64 maj Major.first 0#64
  let taken ← read32 maj Major.size
  modify fun s => { s with allocated := s.allocated + taken.setWidth 64 }
  return maj

/-- The free bytes of a major as the counters have them. -/
def spare (maj : W64) : AllocM W64 := do
  return ((← read32 maj Major.size) - (← read32 maj Major.usage)).setWidth 64

/-- The steps that the cases of `malloc` end with: the major is charged for the block, and the
    caller gets the pointer behind its header. -/
def handOut (maj min size : W64) : AllocM W64 := do
  write32 maj Major.usage (((← read32 maj Major.usage).setWidth 64 + (size + 40#64)).setWidth 32)
  modify fun s => { s with inuse := s.inuse + size }
  let p ← align (min + 40#64)
  liballocUnlock
  return p

/-- CASE 2: a block without minors. -/
def placeFirst (maj size : W64) (reqSize : W32) : AllocM W64 := do
  write64 maj Major.first (maj + 40#64)
  let min ← read64 maj Major.first
  write32 min Minor.magic allocMarkerMagic
  write64 min Minor.prev 0#64
  write64 min Minor.next 0#64
  write64 min Minor.block maj
  write32 min Minor.size (size.setWidth 32)
  write32 min Minor.reqSize reqSize
  handOut maj min size

/-- CASE 3: enough space before the first minor. -/
def placeFront (maj size : W64) (reqSize : W32) : AllocM W64 := do
  let first ← read64 maj Major.first
  write64 first Minor.prev (maj + 40#64)
  let new ← read64 first Minor.prev
  write64 new Minor.next first
  write64 maj Major.first (← read64 first Minor.prev)
  let min ← read64 maj Major.first
  write32 min Minor.magic allocMarkerMagic
  write64 min Minor.prev 0#64
  write64 min Minor.block maj
  write32 min Minor.size (size.setWidth 32)
  write32 min Minor.reqSize reqSize
  handOut maj min size

/-- CASE 4.1: enough space behind the last minor. -/
def placeLast (maj min size : W64) (reqSize : W32) : AllocM W64 := do
  write64 min Minor.next (min + 40#64 + (← read32 min Minor.size).setWidth 64)
  let new ← read64 min Minor.next
  write64 new Minor.prev min
  write64 new Minor.next 0#64
  write32 new Minor.magic allocMarkerMagic
  write64 new Minor.block maj
  write32 new Minor.size (size.setWidth 32)
  write32 new Minor.reqSize reqSize
  handOut maj new size

/-- CASE 4.2: enough space between two minors. -/
def placeBetween (maj min size : W64) (reqSize : W32) : AllocM W64 := do
  let new := min + 40#64 + (← read32 min Minor.size).setWidth 64
  write32 new Minor.magic allocMarkerMagic
  write64 new Minor.next (← read64 min Minor.next)
  write64 new Minor.prev min
  write32 new Minor.size (size.setWidth 32)
  write32 new Minor.reqSize reqSize
  write64 new Minor.block maj
  write64 (← read64 min Minor.next) Minor.prev new
  write64 min Minor.next new
  handOut maj new size

/-- CASE 4: the loop over the minors. -/
def placeBehind (maj size : W64) (reqSize : W32) : (fuel : Nat) → (min : W64) → AllocM (Option W64)
  | 0, _ => failure
  | fuel + 1, min => do
    if min = 0#64 then return none
    let next ← read64 min Minor.next
    let limit ← if next = 0#64 then do pure (maj + (← read32 maj Major.size).setWidth 64) else pure next
    let diff := limit - min - 40#64 - (← read32 min Minor.size).setWidth 64
    if size + 40#64 ≤ diff then
      if next = 0#64 then return some (← placeLast maj min size reqSize)
      else return some (← placeBetween maj min size reqSize)
    placeBehind maj size reqSize fuel next

/-- CASES 2 to 4: a place in the major, if it has one. -/
def placeIn (fuel : Nat) (maj size : W64) (reqSize : W32) : AllocM (Option W64) := do
  let first ← read64 maj Major.first
  if first = 0#64 then return some (← placeFirst maj size reqSize)
  if size + 40#64 ≤ first - maj - 40#64 then return some (← placeFront maj size reqSize)
  placeBehind maj size reqSize fuel first

/-- Where the search goes from a major. -/
inductive Turn
  | here (maj : W64)
  | on (maj : W64) (startedBet : Bool)
  | stop

/-- A new major is made behind the last one. -/
def addPage (maj size : W64) : AllocM W64 := do
  write64 maj Major.next (← allocNewPage (size.setWidth 32))
  let next ← read64 maj Major.next
  if next ≠ 0#64 then write64 next Major.prev maj
  return next

/-- CASE 1. -/
def checkSpace (maj size : W64) (startedBet : Bool) (diff : W64) : AllocM Turn := do
  if diff < size + 40#64 then
    let next ← read64 maj Major.next
    if next ≠ 0#64 then return .on next startedBet
    if startedBet then return .on (← get).memRoot false
    let next ← addPage maj size
    if next = 0#64 then return .stop
    return .here next
  return .here maj

/-- CASE 5: the major to go on with, and whether the search may still begin again. -/
def nextMajor (maj size : W64) (startedBet : Bool) : AllocM (Option (W64 × Bool)) := do
  let next ← read64 maj Major.next
  if next ≠ 0#64 then return some (next, startedBet)
  if startedBet then return some ((← get).memRoot, false)
  let next ← addPage maj size
  if next = 0#64 then return none
  return some (next, startedBet)

def giveUp : AllocM W64 := do
  liballocUnlock
  return 0#64

def mallocLoop (size : W64) (reqSize : W32) : (fuel : Nat) → (maj : W64) → (startedBet : Bool) → (bestSize : W64) →
    AllocM W64
  | 0, _, _, _ => failure
  | fuel + 1, maj, startedBet, bestSize => do
    if maj = 0#64 then giveUp
    else
      let diff ← spare maj
      if bestSize < diff then modify fun s => { s with bestBet := maj }
      let bestSize := if bestSize < diff then diff else bestSize
      match ← checkSpace maj size startedBet diff with
      | .stop => giveUp
      | .on maj startedBet => mallocLoop size reqSize fuel maj startedBet bestSize
      | .here maj =>
        match ← placeIn fuel maj size reqSize with
        | some p => return p
        | none =>
          match ← nextMajor maj size startedBet with
          | none => giveUp
          | some (maj, startedBet) => mallocLoop size reqSize fuel maj startedBet bestSize

/-- `size` is never 0 here, as the room for the alignment is added to it. -/
def malloc (fuel : Nat) (reqSize : W32) : AllocM W64 := do
  let size := reqSize.setWidth 64 + 32#64
  liballocLock
  if (← get).memRoot = 0#64 then
    let page ← allocNewPage (size.setWidth 32)
    modify fun s => { s with memRoot := page }
    if page = 0#64 then
      liballocUnlock
      return 0#64
  let root := (← get).memRoot
  let bet := (← get).bestBet
  if bet ≠ 0#64 then
    let bestSize ← spare bet
    if size + 40#64 < bestSize then mallocLoop size reqSize fuel bet true bestSize
    else mallocLoop size reqSize fuel root false bestSize
  else mallocLoop size reqSize fuel root false 0#64

/-- `x->next->prev = x->prev`, if there is a next one. The links of majors and minors have the same offsets. -/
def relinkNext (x : W64) : AllocM Unit := do
  let next ← read64 x Minor.next
  if next ≠ 0#64 then write64 next Minor.prev (← read64 x Minor.prev)

/-- `x->prev->next = x->next`, if there is a previous one. -/
def relinkPrev (x : W64) : AllocM Unit := do
  let prev ← read64 x Minor.prev
  if prev ≠ 0#64 then write64 prev Minor.next (← read64 x Minor.next)

def dropRoot (maj : W64) : AllocM Unit := do
  if (← get).memRoot = maj then
    let next ← read64 maj Major.next
    modify fun s => { s with memRoot := next }

def dropBet (maj : W64) : AllocM Unit := do
  if (← get).bestBet = maj then modify fun s => { s with bestBet := 0#64 }

/-- The major that has lost its last minor goes back to the system. -/
def dropMajor (maj : W64) : AllocM Unit := do
  dropRoot maj
  dropBet maj
  relinkPrev maj
  relinkNext maj
  let size ← read32 maj Major.size
  modify fun s => { s with allocated := s.allocated - size.setWidth 64 }
  liballocFree maj (← read32 maj Major.pages)

def keepBest (maj : W64) : AllocM Unit := do
  let bet := (← get).bestBet
  if bet ≠ 0#64 then
    let bestSize := (← read32 bet Major.size) - (← read32 bet Major.usage)
    let majSize := (← read32 maj Major.size) - (← read32 maj Major.usage)
    if bestSize.toInt < majSize.toInt then modify fun s => { s with bestBet := maj }

/-- The minor is taken out of the list of its major. -/
def unlinkMinor (maj min : W64) : AllocM Unit := do
  relinkNext min
  relinkPrev min
  if (← read64 min Minor.prev) = 0#64 then write64 maj Major.first (← read64 min Minor.next)

/-- The major gets the bytes of the minor back, and the minor is no longer one. -/
def release (maj min : W64) (size : W32) : AllocM Unit := do
  write32 maj Major.usage (((← read32 maj Major.usage).setWidth 64 - (size.setWidth 64 + 40#64)).setWidth 32)
  write32 min Minor.magic allocMarkerDead
  unlinkMinor maj min

def free (ptr : W64) : AllocM Unit := do
  if ptr = 0#64 then return ()
  let ptr ← unalign ptr
  liballocLock
  let min := ptr - 40#64
  if (← read32 min Minor.magic) ≠ allocMarkerMagic then liballocUnlock
  else
    let maj ← read64 min Minor.block
    let size ← read32 min Minor.size
    modify fun s => { s with inuse := s.inuse - size.setWidth 64 }
    release maj min size
    if (← read64 maj Major.first) = 0#64 then dropMajor maj else keepBest maj
    liballocUnlock

end Neutrino.Alloc
