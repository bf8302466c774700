import Neutrino.Alloc.Model
import Neutrino.Library.DoublyLinked
import Neutrino.Library.FirstFit

namespace Neutrino.Alloc

open Library

/-- An allocation: the address of its minor, the bytes behind the minor and the bytes asked for. -/
structure Block where
  addr : Nat
  size : Nat
  req : Nat

/-- The pages of a major, with the allocations made in them. -/
structure Arena where
  base : Nat
  pages : Nat
  blocks : List Block

namespace Block

def stop (b : Block) : Nat := b.addr + 40 + b.size

/-- What the caller gets: the first multiple of 16 that leaves 16 bytes behind the minor. -/
def pointer (b : Block) : Nat := (b.addr + 56 + 15) / 16 * 16

/-- The addresses of the minor, of the bytes of the caller and of the note before them. -/
abbrev min (b : Block) : W64 := BitVec.ofNat 64 b.addr

abbrev ptr (b : Block) : W64 := BitVec.ofNat 64 b.pointer

abbrev mark (b : Block) : W64 := BitVec.ofNat 64 (b.pointer - 16)

/-- The note says how far back the minor ends. -/
def Marked (b : Block) (mem : ByteMemory) : Prop := fetch 8 mem b.mark = BitVec.ofNat 8 (b.pointer - (b.addr + 40))

/-- The bytes that the caller may use. -/
def payload (b : Block) : Set W64 := {x | b.pointer ≤ x.toNat ∧ x.toNat < b.pointer + b.req}

def Apart (b c : Block) : Prop := b.stop ≤ c.addr ∨ c.stop ≤ b.addr

instance : Std.Symm Apart := ⟨fun _ _ => Or.symm⟩

theorem pointer_bounds (b : Block) : b.addr + 56 ≤ b.pointer ∧ b.pointer ≤ b.addr + 71 := by
  unfold pointer
  omega

end Block

namespace Arena

abbrev maj (a : Arena) : W64 := BitVec.ofNat 64 a.base

def bytes (a : Arena) : Nat := a.pages * 4096

def stop (a : Arena) : Nat := a.base + a.bytes

def usage (a : Arena) : Nat := 40 + FirstFit.extent Block.addr Block.stop a.blocks

def first (a : Arena) : W64 := (a.blocks.head?.map Block.min).getD 0#64

def withBlocks (a : Arena) (blocks : List Block) : Arena := { a with blocks }

structure Good (a : Arena) : Prop where
  pos : 0 < a.base
  fits : a.stop ≤ 2 ^ 64
  small : a.bytes < 2 ^ 32
  ordered : FirstFit.Ordered Block.addr Block.stop (a.base + 40) a.stop a.blocks
  sized : ∀ b ∈ a.blocks, b.req + 32 ≤ b.size

def Apart (a b : Arena) : Prop := a.stop ≤ b.base ∨ b.stop ≤ a.base

theorem Apart.symm {a b : Arena} (apart : a.Apart b) : b.Apart a := Or.symm apart

instance : Std.Symm Apart := ⟨fun _ _ => Apart.symm⟩

end Arena

/-- The majors of the allocator in the order of their list. -/
structure Laid (arenas : List Arena) : Prop where
  each : ∀ a ∈ arenas, a.Good
  apart : arenas.Pairwise Arena.Apart

/-- Between two calls every major has a minor. -/
structure Good (arenas : List Arena) : Prop extends Laid arenas where
  used : ∀ a ∈ arenas, a.blocks ≠ []

/-- The three counts of a header, and its pointer that is no link. -/
structure Counts where
  one : W32
  two : W32
  three : W32
  owner : W64

/-- Majors and minors have their links at the same place. -/
def records (mem : ByteMemory) : LinkStore W64 Counts := fun a =>
  some ⟨⟨fetch 32 mem (a + 0#64), fetch 32 mem (a + 4#64), fetch 32 mem (a + 8#64), fetch 64 mem (a + 32#64)⟩,
    fetch 64 mem (a + 24#64), fetch 64 mem (a + 16#64)⟩

def Arena.node (a : Arena) : W64 × Counts :=
  (a.maj, ⟨BitVec.ofNat 32 a.pages, BitVec.ofNat 32 a.bytes, BitVec.ofNat 32 a.usage, a.first⟩)

def Block.node (owner : Arena) (b : Block) : W64 × Counts :=
  (b.min, ⟨allocMarkerMagic, BitVec.ofNat 32 b.size, BitVec.ofNat 32 b.req, owner.maj⟩)

/-- The memory holds the majors with their minors. -/
structure Holds (mem : ByteMemory) (root : W64) (arenas : List Arena) : Prop where
  majors : Segment (records mem) 0#64 root (arenas.map Arena.node) 0#64
  minors : ∀ a ∈ arenas, Segment (records mem) 0#64 a.first (a.blocks.map (Block.node a)) 0#64
  marks : ∀ a ∈ arenas, ∀ b ∈ a.blocks, b.Marked mem

abbrev Liballoc.Holds (s : Liballoc) (arenas : List Arena) : Prop := Alloc.Holds s.mem s.memRoot arenas

/-- The words that a request comes to: its size with the room for the alignment, and the size itself. -/
abbrev size64 (req : Nat) : W64 := BitVec.ofNat 64 (req + 32)

abbrev req32 (req : Nat) : W32 := BitVec.ofNat 32 req

section Words

variable {a b : Nat}

theorem ofNat_sub_ofNat (le : b ≤ a) : BitVec.ofNat 64 a - BitVec.ofNat 64 b = BitVec.ofNat 64 (a - b) := by
  have split : a = a - b + b := by omega
  rw [split, BitVec.ofNat_add, BitVec.add_sub_cancel, Nat.add_sub_cancel]

theorem ofNat_toNat (small : a < 2 ^ 64) : (BitVec.ofNat 64 a).toNat = a := by
  rw [BitVec.toNat_ofNat, Nat.mod_eq_of_lt small]

theorem ofNat_le (small : a < 2 ^ 64) (small' : b < 2 ^ 64) : BitVec.ofNat 64 a ≤ BitVec.ofNat 64 b ↔ a ≤ b := by
  rw [BitVec.le_def, ofNat_toNat small, ofNat_toNat small']

theorem ofNat_lt (small : a < 2 ^ 64) (small' : b < 2 ^ 64) : BitVec.ofNat 64 a < BitVec.ofNat 64 b ↔ a < b := by
  rw [BitVec.lt_def, ofNat_toNat small, ofNat_toNat small']

theorem ofNat_injective (small : a < 2 ^ 64) (small' : b < 2 ^ 64) (same : BitVec.ofNat 64 a = BitVec.ofNat 64 b) :
    a = b := by
  have numbers := congrArg BitVec.toNat same
  rw [ofNat_toNat small, ofNat_toNat small'] at numbers
  exact numbers

theorem ofNat_ne_zero (pos : 0 < a) (small : a < 2 ^ 64) : BitVec.ofNat 64 a ≠ 0#64 := by
  intro zero
  have := ofNat_injective small (by omega) zero
  omega

theorem setWidth_ofNat (small : a < 2 ^ 32) : (BitVec.ofNat 32 a).setWidth 64 = BitVec.ofNat 64 a := by
  apply BitVec.eq_of_toNat_eq
  rw [BitVec.toNat_setWidth, BitVec.toNat_ofNat, BitVec.toNat_ofNat]
  omega

theorem setWidth_ofNat_low (a : Nat) : (BitVec.ofNat 64 a).setWidth 32 = BitVec.ofNat 32 a := by
  apply BitVec.eq_of_toNat_eq
  rw [BitVec.toNat_setWidth, BitVec.toNat_ofNat, BitVec.toNat_ofNat]
  omega

end Words

section Records

variable {mem : ByteMemory} {a b : W64} {n : LinkNode W64 Counts}

/-- The 40 bytes of two headers do not overlap. -/
def HeadersApart (a b : W64) : Prop := ∀ x, Within a 40 x → ¬ Within b 40 x

theorem records_congr {mem' : ByteMemory} (same : ∀ x, Within a 40 x → mem' x = mem x) :
    records mem' a = records mem a := by
  have word : ∀ w o : Nat, o + w / 8 ≤ 40 →
      fetch w mem' (a + BitVec.ofNat 64 o) = fetch w mem (a + BitVec.ofNat 64 o) := by
    intro w o fits
    apply fetch_congr (by omega)
    intro x inside
    exact same x (within_part fits (by omega) inside).1
  simp only [records]
  rw [word 32 0 (by omega), word 32 4 (by omega), word 32 8 (by omega), word 64 16 (by omega), word 64 24 (by omega),
    word 64 32 (by omega)]

theorem records_other {mem' : ByteMemory} (apart : HeadersApart a b)
    (same : ∀ x, ¬ Within a 40 x → mem' x = mem x) : records mem' b = records mem b :=
  records_congr fun x inside => same x fun there => apart x there inside

theorem fetch_field {w w' o o' : Nat} {v : BitVec w} (fits : o + w / 8 ≤ 40) (fits' : o' + w' / 8 ≤ 40)
    (apart : o + w / 8 ≤ o' ∨ o' + w' / 8 ≤ o) :
    fetch w' (put mem (a + BitVec.ofNat 64 o) v) (a + BitVec.ofNat 64 o') = fetch w' mem (a + BitVec.ofNat 64 o') :=
  fetch_put_field (by omega : 40 ≤ 2 ^ 64) fits fits' apart

inductive Field : Nat → Type
  | one : Field 32
  | two : Field 32
  | three : Field 32
  | owner : Field 64
  | next : Field 64
  | prev : Field 64

namespace Field

variable {w : Nat}

def offset : Field w → Nat
  | one => 0
  | two => 4
  | three => 8
  | owner => 32
  | next => 24
  | prev => 16

def get (n : LinkNode W64 Counts) : Field w → BitVec w
  | one => n.data.one
  | two => n.data.two
  | three => n.data.three
  | owner => n.data.owner
  | next => n.next
  | prev => n.prev

def set (n : LinkNode W64 Counts) : Field w → BitVec w → LinkNode W64 Counts
  | one, v => { n with data := { n.data with one := v } }
  | two, v => { n with data := { n.data with two := v } }
  | three, v => { n with data := { n.data with three := v } }
  | owner, v => { n with data := { n.data with owner := v } }
  | next, v => { n with next := v }
  | prev, v => { n with prev := v }

end Field

variable {w : Nat} {v : BitVec w}

theorem fetch_records (f : Field w) (here : records mem a = some n) :
    fetch w mem (a + BitVec.ofNat 64 f.offset) = f.get n := by
  cases here
  cases f <;> rfl

theorem records_put (f : Field w) :
    records (put mem (a + BitVec.ofNat 64 f.offset) v) a = (records mem a).map fun n => f.set n v := by
  cases f <;>
  · simp only [records, Option.map_some, Field.offset, Field.set]
    rw [fetch_put (by omega) (by omega), fetch_field (by omega) (by omega) (by omega),
      fetch_field (by omega) (by omega) (by omega), fetch_field (by omega) (by omega) (by omega),
      fetch_field (by omega) (by omega) (by omega), fetch_field (by omega) (by omega) (by omega)]

end Records

/-- The code has come from the state `s0` to the state `s` by stores to headers in `sites`, where it has
    left the records `h`. -/
structure Track (sites : Set W64) (s0 s : Liballoc) (h : LinkStore W64 Counts) : Prop where
  apart : ∀ a ∈ sites, ∀ b ∈ sites, a ≠ b → HeadersApart a b
  typed : ∀ a ∈ sites, records s.mem a = h a
  frame : ∀ x, (∀ a ∈ sites, ¬ Within a 40 x) → s.mem x = s0.mem x
  vars : s = { s0 with mem := s.mem }

section Tracks

variable {sites : Set W64} {s0 s : Liballoc} {h : LinkStore W64 Counts} {a : W64} {w : Nat} {v : BitVec w}
  {n : LinkNode W64 Counts} {α : Type} {post : α → Liballoc → Prop}

theorem Track.start (apart : ∀ a ∈ sites, ∀ b ∈ sites, a ≠ b → HeadersApart a b) :
    Track sites s s (records s.mem) := ⟨apart, fun _ _ => rfl, fun _ _ => rfl, rfl⟩

theorem read_eq (here : records s.mem a = some n) (f : Field w) : Alloc.read w a f.offset s = some (f.get n, s) := by
  rw [Alloc.read, fetch_records f here]

variable (track : Track sites s0 s h) (site : a ∈ sites) (here : h a = some n) (f : Field w)
include track site here

theorem Track.read {next : BitVec w → AllocM α} (rest : Yields s (next (f.get n)) post) :
    Yields s (Alloc.read w a f.offset >>= next) post := .after (read_eq ((track.typed a site).trans here) f) rest

theorem Track.put : Track sites s0 { s with mem := put s.mem (a + BitVec.ofNat 64 f.offset) v }
    (Function.update h a (some (f.set n v))) := by
  have fits : f.offset + w / 8 ≤ 40 := by cases f <;> decide
  have outside : ∀ x, ¬ Within a 40 x → Library.put s.mem (a + BitVec.ofNat 64 f.offset) v x = s.mem x := by
    intro x away
    apply put_other
    intro inside
    exact away (within_part fits (by omega) inside).1
  refine ⟨track.apart, fun b member => ?_, fun x away => ?_, ?_⟩
  · by_cases same : b = a
    · rw [same, Function.update_self]
      refine (records_put f).trans ?_
      rw [track.typed a site, here, Option.map_some]
    · rw [Function.update_of_ne same, ← track.typed b member]
      exact records_other (track.apart a site b member (Ne.symm same)) outside
  · exact (outside x (away a site)).trans (track.frame x away)
  · rw [track.vars]

theorem Track.write {next : Unit → AllocM α}
    (rest : ∀ s', Track sites s0 s' (Function.update h a (some (f.set n v))) → Yields s' (next ()) post) :
    Yields s (Alloc.write a f.offset v >>= next) post := .after rfl (rest _ (track.put site here f))

omit track here in
theorem Track.again (track : Track sites s0 s (Function.update h a (some n))) {next : Unit → AllocM α}
    (rest : ∀ s', Track sites s0 s' (Function.update h a (some (f.set n v))) → Yields s' (next ()) post) :
    Yields s (Alloc.write a f.offset v >>= next) post := by
  refine track.write site (Function.update_self _ _ _) f fun s' track => rest s' ?_
  rw [Function.update_idem] at track
  exact track

end Tracks

end Neutrino.Alloc
