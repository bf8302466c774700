import Neutrino.Library.Bytes
import Neutrino.Machine.Word

namespace Neutrino.Apic

open Library

abbrev Byte := BitVec 8

/-- `h.Length` of a table. -/
def tableLength (mem : ByteMemory) (madt : W64) : W32 := BitVec.ofNat 32 (ofLe (load mem (madt + 4) 4))

/-- Where `interrupt_devices_start` lies in `struct MADT`. -/
def devicesStart : Nat := 44

/-- A MADT as it stands in memory, of which the address space has all bytes. -/
structure Madt where
  mem : ByteMemory
  base : W64
  placed : base.toNat + max (tableLength mem base).toNat devicesStart < 2 ^ 64

namespace Madt

variable (madt : Madt)

def length : Nat := (tableLength madt.mem madt.base).toNat

/-- The address at an offset. -/
def address (offset : Nat) : W64 := madt.base + BitVec.ofNat 64 offset

end Madt

/-- One of the arrays of `apic` with its counter, the MMIO pages mapped, and a trace of the call: the
    indices it has stored at, and the bytes of entry headers it has read. -/
structure Listing where
  slots : Nat → W64
  count : BitVec 16
  mmio : List W32
  stored : List Nat
  reads : List W64

/-- The counter is reset, and the trace begins. -/
def Listing.reset (listing : Listing) : Listing := { listing with count := 0, stored := [], reads := [] }

def Listing.read (listing : Listing) (address : W64) : Listing := { listing with reads := listing.reads ++ [address] }

def Listing.add (listing : Listing) (entry : W64) : Listing where
  slots := Function.update listing.slots listing.count.toNat entry
  count := listing.count + 1
  mmio := listing.mmio
  stored := listing.stored ++ [listing.count.toNat]
  reads := listing.reads

def ioapicType : Byte := 1
def ioapicIsoType : Byte := 2

/-- `apic_addr` of a `MadtApicIOApic`. -/
def apicAddr (mem : ByteMemory) (entry : W64) : W32 := BitVec.ofNat 32 (ofLe (load mem (entry + 4) 4))

/-- What `apic_setup_IOAPIC` does with an entry of its type. -/
def addIoapic (mem : ByteMemory) (listing : Listing) (entry : W64) : Listing :=
  { listing.add entry with mmio := listing.mmio ++ [apicAddr mem entry] }

def visit (mem : ByteMemory) (type : Byte) (add : Listing → W64 → Listing) (listing : Listing) (entry : W64) : Listing :=
  let listing := listing.read entry
  let listing := if mem entry = type then add listing entry else listing
  listing.read (entry + 1)

/-- The loop; `none` when the iterations run out. -/
def walkEntries (mem : ByteMemory) (stop : W64) (type : Byte) (add : Listing → W64 → Listing) :
    (fuel : Nat) → (entryHdr : W64) → Listing → Option Listing
  | 0, _, _ => none
  | fuel + 1, entryHdr, listing =>
    if entryHdr < stop then
      walkEntries mem stop type add fuel (entryHdr + (mem (entryHdr + 1)).setWidth 64) (visit mem type add listing entryHdr)
    else some listing

def setupEntries (madt : Madt) (type : Byte) (add : Listing → W64 → Listing) (fuel : Nat) (listing : Listing) :
    Option Listing :=
  walkEntries madt.mem (madt.base + (tableLength madt.mem madt.base).setWidth 64) type add fuel
    (madt.address devicesStart) listing.reset

def apicSetupIOAPIC (madt : Madt) : (fuel : Nat) → Listing → Option Listing :=
  setupEntries madt ioapicType (addIoapic madt.mem)

def apicSetupIOAPICISO (madt : Madt) : (fuel : Nat) → Listing → Option Listing :=
  setupEntries madt ioapicIsoType Listing.add

/-! The entries of the table. -/

namespace Madt

variable (madt : Madt)

def entryLength (offset : Nat) : Nat := (madt.mem (madt.address offset + 1)).toNat

/-- The offsets of the entries from one on, each where the one before ends. An entry of length zero is
    the last. -/
def entriesFrom : (fuel : Nat) → (offset : Nat) → List Nat
  | 0, _ => []
  | fuel + 1, offset =>
    if offset < madt.length then
      offset :: if madt.entryLength offset = 0 then [] else entriesFrom fuel (offset + madt.entryLength offset)
    else []

def entries : List Nat := madt.entriesFrom madt.length devicesStart

def entriesOf (type : Byte) : List Nat := madt.entries.filter fun offset => madt.mem (madt.address offset) = type

/-- The header of the entry lies in the table, and the next entry begins further on. -/
structure Regular (offset : Nat) : Prop where
  header : offset + 2 ≤ madt.length
  advances : madt.entryLength offset ≠ 0
  ends : madt.base.toNat + offset + madt.entryLength offset < 2 ^ 64

def Inside (address : W64) : Prop := madt.base.toNat ≤ address.toNat ∧ address.toNat < madt.base.toNat + madt.length

/-- What is to become of the listing: all entries of the type in the order of the table, found by reading
    headers inside the table, and in the 64 slots there are. -/
structure Listed (type : Byte) (result : Listing) : Prop where
  inside : ∀ address ∈ result.reads, madt.Inside address
  count : result.count.toNat = (madt.entriesOf type).length
  slots : (List.range result.count.toNat).map result.slots = (madt.entriesOf type).map madt.address
  stored : ∀ index ∈ result.stored, index < 64

end Madt

section Addresses

variable {madt : Madt} {offset : Nat}

theorem address_toNat (low : madt.base.toNat + offset < 2 ^ 64) : (madt.address offset).toNat = madt.base.toNat + offset := by
  rw [Madt.address, BitVec.toNat_add, BitVec.toNat_ofNat]
  omega

theorem length_bound : madt.base.toNat + madt.length < 2 ^ 64 ∧ madt.base.toNat + devicesStart < 2 ^ 64 := by
  have placed := madt.placed
  rw [Madt.length]
  omega

theorem address_add (more : Nat) : madt.address offset + BitVec.ofNat 64 more = madt.address (offset + more) := by
  rw [Madt.address, Madt.address, BitVec.add_assoc, BitVec.ofNat_add]

theorem stop_toNat : (madt.base + (tableLength madt.mem madt.base).setWidth 64).toNat = madt.base.toNat + madt.length := by
  have bound := (@length_bound madt).1
  have width := (tableLength madt.mem madt.base).isLt
  rw [Madt.length] at bound ⊢
  rw [BitVec.toNat_add, BitVec.toNat_setWidth]
  omega

theorem before_stop_iff (low : madt.base.toNat + offset < 2 ^ 64) :
    madt.address offset < madt.base + (tableLength madt.mem madt.base).setWidth 64 ↔ offset < madt.length := by
  rw [BitVec.lt_def, address_toNat low, stop_toNat]
  omega

theorem next_entry : madt.address offset + (madt.mem (madt.address offset + 1)).setWidth 64 =
    madt.address (offset + madt.entryLength offset) := by
  rw [← address_add]
  apply congrArg (madt.address offset + ·)
  apply BitVec.eq_of_toNat_eq
  rw [BitVec.toNat_setWidth, BitVec.toNat_ofNat, Madt.entryLength]

theorem entryLength_lt : madt.entryLength offset < 256 := BitVec.isLt _

theorem length_lt : madt.length < 2 ^ 32 := BitVec.isLt _

theorem Madt.entriesFrom_cons {fuel : Nat} (low : offset < madt.length) (advances : madt.entryLength offset ≠ 0) :
    madt.entriesFrom (fuel + 1) offset = offset :: madt.entriesFrom fuel (offset + madt.entryLength offset) := by
  rw [Madt.entriesFrom, if_pos low, if_neg advances]

end Addresses

/-! The walk. -/

/-- Both ways to add an entry store its address in the next slot. -/
structure Adds (add : Listing → W64 → Listing) : Prop where
  slots : ∀ listing entry, (add listing entry).slots = Function.update listing.slots listing.count.toNat entry
  count : ∀ listing entry, (add listing entry).count = listing.count + 1
  stored : ∀ listing entry, (add listing entry).stored = listing.stored ++ [listing.count.toNat]
  reads : ∀ listing entry, (add listing entry).reads = listing.reads

theorem listing_adds : Adds Listing.add where
  slots _ _ := rfl
  count _ _ := rfl
  stored _ _ := rfl
  reads _ _ := rfl

theorem ioapic_adds (mem : ByteMemory) : Adds (addIoapic mem) where
  slots _ _ := rfl
  count _ _ := rfl
  stored _ _ := rfl
  reads _ _ := rfl

section Walk

variable {madt : Madt} {mem : ByteMemory} {stop : W64} {type : Byte} {add : Listing → W64 → Listing}

theorem visit_reads (adds : Adds add) (listing : Listing) (entry : W64) :
    (visit mem type add listing entry).reads = listing.reads ++ [entry, entry + 1] := by
  unfold visit Listing.read
  split
  · simp only [adds.reads, List.append_assoc, List.cons_append, List.nil_append]
  · simp only [List.append_assoc, List.cons_append, List.nil_append]

theorem walk_keeps_reads (adds : Adds add) {fuel : Nat} {entry : W64} {listing result : Listing}
    (walked : walkEntries mem stop type add fuel entry listing = some result) {address : W64}
    (isRead : address ∈ listing.reads) : address ∈ result.reads := by
  induction fuel generalizing entry listing with
  | zero => cases walked
  | succ fuel ih =>
    rw [walkEntries] at walked
    split at walked
    · apply ih walked
      rw [visit_reads adds]
      exact List.mem_append_left _ isRead
    · cases walked
      exact isRead

theorem walk_reads_header (adds : Adds add) {fuel : Nat} {entry : W64} {listing result : Listing}
    (walked : walkEntries mem stop type add fuel entry listing = some result) (before : entry < stop) :
    entry ∈ result.reads ∧ entry + 1 ∈ result.reads := by
  cases fuel with
  | zero => cases walked
  | succ fuel =>
    rw [walkEntries, if_pos before] at walked
    constructor <;>
    · apply walk_keeps_reads adds walked
      rw [visit_reads adds]
      simp

theorem walk_stuck {entry : W64} (before : entry < stop) (empty : (mem (entry + 1)).toNat = 0) (fuel : Nat)
    (listing : Listing) : walkEntries mem stop type add fuel entry listing = none := by
  have stays : entry + (mem (entry + 1)).setWidth 64 = entry := by
    apply BitVec.eq_of_toNat_eq
    rw [BitVec.toNat_add, BitVec.toNat_setWidth, empty]
    have width := entry.isLt
    omega
  induction fuel generalizing listing with
  | zero => rfl
  | succ fuel ih => rw [walkEntries, if_pos before, stays, ih]

theorem walk_more {fuel more : Nat} {entry : W64} {listing result : Listing} (enough : fuel ≤ more)
    (walked : walkEntries mem stop type add fuel entry listing = some result) :
    walkEntries mem stop type add more entry listing = some result := by
  induction fuel generalizing more entry listing with
  | zero => cases walked
  | succ fuel ih =>
    obtain ⟨rest, rfl⟩ : ∃ rest, more = rest + 1 := ⟨more - 1, by omega⟩
    rw [walkEntries] at walked ⊢
    by_cases before : entry < stop
    · rw [if_pos before] at walked ⊢
      exact ih (by omega) walked
    · rw [if_neg before] at walked ⊢
      exact walked

/-- What the walk makes of the entries at some offsets. -/
def visitAll (madt : Madt) (type : Byte) (add : Listing → W64 → Listing) (listing : Listing) (offsets : List Nat) :
    Listing :=
  offsets.foldl (fun listing offset => visit madt.mem type add listing (madt.address offset)) listing

theorem walk_regular {fuel offset : Nat} {listing : Listing} (enough : madt.length ≤ offset + fuel)
    (low : madt.base.toNat + offset < 2 ^ 64) (regular : ∀ entry ∈ madt.entriesFrom fuel offset, madt.Regular entry) :
    walkEntries madt.mem (madt.base + (tableLength madt.mem madt.base).setWidth 64) type add (fuel + 1)
      (madt.address offset) listing = some (visitAll madt type add listing (madt.entriesFrom fuel offset)) := by
  have beforeIff := before_stop_iff low
  induction fuel generalizing offset listing with
  | zero =>
    have past : ¬ offset < madt.length := by omega
    rw [walkEntries, if_neg (mt beforeIff.mp past)]
    rfl
  | succ fuel ih =>
    by_cases before : offset < madt.length
    · have here : madt.Regular offset := by
        apply regular
        rw [Madt.entriesFrom, if_pos before]
        exact List.mem_cons_self
      have advances := here.advances
      rw [Madt.entriesFrom_cons before advances] at regular ⊢
      have lowNext : madt.base.toNat + (offset + madt.entryLength offset) < 2 ^ 64 := by
        have ends := here.ends
        omega
      rw [walkEntries, if_pos (beforeIff.mpr before), next_entry, ih (by omega) lowNext
        (fun entry among => regular entry (List.mem_cons_of_mem _ among)) (before_stop_iff lowNext)]
      rfl
    · rw [walkEntries, if_neg (mt beforeIff.mp before), Madt.entriesFrom, if_neg before]
      rfl

theorem regular_of_walk (adds : Adds add) {rounds fuel offset : Nat} {listing result : Listing}
    (low : madt.base.toNat + offset < 2 ^ 64)
    (walked : walkEntries madt.mem (madt.base + (tableLength madt.mem madt.base).setWidth 64) type add rounds
      (madt.address offset) listing = some result)
    (inside : ∀ address ∈ result.reads, madt.Inside address) :
    ∀ entry ∈ madt.entriesFrom fuel offset, madt.Regular entry := by
  induction fuel generalizing rounds offset listing with
  | zero =>
    intro entry among
    cases among
  | succ fuel ih =>
    by_cases past : madt.length ≤ offset
    · intro entry among
      rw [Madt.entriesFrom, if_neg (by omega)] at among
      cases among
    have before : offset < madt.length := by omega
    have bound := (@length_bound madt).1
    have beforeStop := (before_stop_iff low).mpr before
    have advances : madt.entryLength offset ≠ 0 := by
      intro empty
      rw [walk_stuck beforeStop empty] at walked
      cases walked
    have header : offset + 2 ≤ madt.length := by
      have second := (inside _ (walk_reads_header adds walked beforeStop).2).2
      have next : madt.address offset + 1 = madt.address (offset + 1) := address_add 1
      rw [next, address_toNat (by omega)] at second
      omega
    -- one more round has been walked from the next entry on
    obtain ⟨rest, walkedRest⟩ : ∃ rest, walkEntries madt.mem
        (madt.base + (tableLength madt.mem madt.base).setWidth 64) type add rest
        (madt.address (offset + madt.entryLength offset)) (visit madt.mem type add listing (madt.address offset)) =
        some result := by
      cases rounds with
      | zero => cases walked
      | succ rounds =>
        rw [walkEntries, if_pos beforeStop, next_entry] at walked
        exact ⟨rounds, walked⟩
    -- a pointer that wraps around lies before the table and is followed all the same
    have ends : madt.base.toNat + offset + madt.entryLength offset < 2 ^ 64 := by
      by_contra wraps
      have short := @entryLength_lt madt offset
      have place : (madt.address (offset + madt.entryLength offset)).toNat =
          madt.base.toNat + offset + madt.entryLength offset - 2 ^ 64 := by
        rw [Madt.address, BitVec.toNat_add, BitVec.toNat_ofNat]
        omega
      have followed : madt.address (offset + madt.entryLength offset) <
          madt.base + (tableLength madt.mem madt.base).setWidth 64 := by
        rw [BitVec.lt_def, place, stop_toNat]
        omega
      have first := (inside _ (walk_reads_header adds walkedRest followed).1).1
      rw [place] at first
      have small := @length_lt madt
      omega
    rw [Madt.entriesFrom_cons before advances]
    intro entry among
    cases among with
    | head => exact ⟨header, advances, ends⟩
    | tail _ later => exact ih (by omega) walkedRest entry later

end Walk

/-! What has been listed. -/

structure Listing.Holds (listing : Listing) (found : List W64) : Prop where
  count : listing.count.toNat = found.length
  slots : (List.range found.length).map listing.slots = found
  stored : listing.stored = List.range found.length

section Listed

variable {madt : Madt} {type : Byte} {add : Listing → W64 → Listing} {listing : Listing} {found : List W64}

theorem Listing.Holds.added (adds : Adds add) (holds : listing.Holds found) (room : found.length + 1 < 2 ^ 16)
    (entry : W64) : (add listing entry).Holds (found ++ [entry]) where
  count := by
    rw [adds.count, BitVec.toNat_add, holds.count, List.length_append, List.length_singleton]
    exact Nat.mod_eq_of_lt room
  slots := by
    rw [List.length_append, List.length_singleton, List.range_succ, List.map_append, adds.slots, holds.count]
    have kept : (List.range found.length).map (Function.update listing.slots found.length entry) =
        (List.range found.length).map listing.slots := by
      apply List.map_congr_left
      intro index among
      apply Function.update_of_ne
      exact Nat.ne_of_lt (List.mem_range.mp among)
    rw [kept, holds.slots, List.map_singleton, Function.update_self]
  stored := by
    rw [adds.stored, holds.stored, holds.count, List.length_append, List.length_singleton, List.range_succ]

theorem Listing.Holds.read (holds : listing.Holds found) (address : W64) : (listing.read address).Holds found :=
  ⟨holds.count, holds.slots, holds.stored⟩

theorem Listing.Holds.visit (adds : Adds add) (holds : listing.Holds found) (entry : W64)
    (room : found.length + (if madt.mem entry = type then [entry] else []).length < 2 ^ 16) :
    (visit madt.mem type add listing entry).Holds (found ++ if madt.mem entry = type then [entry] else []) := by
  unfold Apic.visit
  apply Listing.Holds.read
  split at room
  · rename_i hit
    rw [if_pos hit, if_pos hit]
    exact (holds.read entry).added adds room entry
  · rename_i miss
    rw [if_neg miss, if_neg miss, List.append_nil]
    exact holds.read entry

def Madt.ofType (madt : Madt) (type : Byte) (offsets : List Nat) : List W64 :=
  (offsets.map madt.address).flatMap fun entry => if madt.mem entry = type then [entry] else []

theorem visitAll_holds (adds : Adds add) (holds : listing.Holds found) {offsets : List Nat}
    (room : found.length + (madt.ofType type offsets).length < 2 ^ 16) :
    (visitAll madt type add listing offsets).Holds (found ++ madt.ofType type offsets) := by
  induction offsets generalizing listing found with
  | nil =>
    rw [Madt.ofType, List.map_nil, List.flatMap_nil, List.append_nil]
    exact holds
  | cons offset offsets ih =>
    have split : madt.ofType type (offset :: offsets) =
        (if madt.mem (madt.address offset) = type then [madt.address offset] else []) ++ madt.ofType type offsets := rfl
    rw [split] at room ⊢
    rw [List.length_append] at room
    rw [← List.append_assoc]
    apply ih (holds.visit adds (madt.address offset) (by omega))
    rw [List.length_append]
    omega

theorem visitAll_reads (adds : Adds add) (offsets : List Nat) :
    (visitAll madt type add listing offsets).reads =
      listing.reads ++ offsets.flatMap fun offset => [madt.address offset, madt.address offset + 1] := by
  induction offsets generalizing listing with
  | nil => exact (List.append_nil _).symm
  | cons offset offsets ih =>
    rw [List.flatMap_cons, ← List.append_assoc, ← visit_reads adds]
    exact ih

theorem ofType_eq (offsets : List Nat) : madt.ofType type offsets =
    (offsets.filter fun offset => madt.mem (madt.address offset) = type).map madt.address := by
  induction offsets with
  | nil => rfl
  | cons offset offsets ih =>
    have split : madt.ofType type (offset :: offsets) =
        (if madt.mem (madt.address offset) = type then [madt.address offset] else []) ++ madt.ofType type offsets := rfl
    rw [split, ih, List.filter_cons]
    by_cases hit : madt.mem (madt.address offset) = type
    · simp [hit]
    · simp [hit]

end Listed

/-- The entries can be walked, and those of the type have a slot each. -/
structure Madt.Fits (madt : Madt) (type : Byte) : Prop where
  regular : ∀ offset ∈ madt.entries, madt.Regular offset
  room : (madt.entriesOf type).length ≤ 64

/-- Whatever is in the array before, the call ends and lists the entries of the type. -/
def Madt.Parses (madt : Madt) (type : Byte) (setup : Madt → (fuel : Nat) → Listing → Option Listing) : Prop :=
  ∀ listing, ∃ fuel result, setup madt fuel listing = some result ∧ madt.Listed type result

section Setup

variable {madt : Madt} {type : Byte} {add : Listing → W64 → Listing} {listing : Listing}

theorem Madt.Regular.inside {offset : Nat} (regular : madt.Regular offset) :
    madt.Inside (madt.address offset) ∧ madt.Inside (madt.address offset + 1) := by
  have bound := (@length_bound madt).1
  have header := regular.header
  have next : madt.address offset + 1 = madt.address (offset + 1) := address_add 1
  rw [next, Madt.Inside, Madt.Inside, address_toNat (by omega), address_toNat (by omega)]
  omega

theorem setupEntries_regular (regular : ∀ offset ∈ madt.entries, madt.Regular offset) :
    setupEntries madt type add (madt.length + 1) listing =
      some (visitAll madt type add listing.reset madt.entries) :=
  walk_regular (by omega) (@length_bound madt).2 regular

theorem setup_holds (adds : Adds add) (room : (madt.entriesOf type).length < 2 ^ 16) :
    (visitAll madt type add listing.reset madt.entries).Holds
      ((madt.entriesOf type).map madt.address) := by
  have begins : listing.reset.Holds [] := ⟨rfl, rfl, rfl⟩
  have listed : madt.ofType type madt.entries = (madt.entriesOf type).map madt.address := ofType_eq madt.entries
  rw [← List.nil_append (List.map _ _), ← listed]
  apply visitAll_holds adds begins
  rw [listed, List.length_nil, List.length_map, Nat.zero_add]
  exact room

theorem setupEntries_listed (adds : Adds add) (fits : madt.Fits type) :
    ∃ fuel result, setupEntries madt type add fuel listing = some result ∧ madt.Listed type result := by
  have room := fits.room
  have holds := @setup_holds madt type add listing adds (by omega)
  refine ⟨_, _, setupEntries_regular fits.regular, ?_, ?_, ?_, ?_⟩
  · intro address isRead
    rw [visitAll_reads adds, Listing.reset, List.nil_append, List.mem_flatMap] at isRead
    obtain ⟨offset, among, isRead⟩ := isRead
    have inside := (fits.regular offset among).inside
    cases isRead with
    | head => exact inside.1
    | tail _ second =>
      rw [List.mem_singleton.mp second]
      exact inside.2
  · rw [holds.count, List.length_map]
  · rw [holds.count, holds.slots]
  · intro index among
    rw [holds.stored, List.mem_range, List.length_map] at among
    omega

theorem fits_of_setupEntries (adds : Adds add) {fuel : Nat} {result : Listing}
    (walked : setupEntries madt type add fuel listing = some result) (listed : madt.Listed type result) :
    madt.Fits type := by
  have regular : ∀ offset ∈ madt.entries, madt.Regular offset :=
    regular_of_walk adds (@length_bound madt).2 walked listed.inside
  have same : visitAll madt type add listing.reset madt.entries = result := by
    have walkedAlone := @setupEntries_regular madt type add listing regular
    have one := walk_more (Nat.le_max_left fuel (madt.length + 1)) walked
    have other := walk_more (Nat.le_max_right fuel (madt.length + 1)) walkedAlone
    exact Option.some.inj (other.symm.trans one)
  have wide := result.count.isLt
  rw [listed.count] at wide
  have holds := @setup_holds madt type add listing adds wide
  rw [same] at holds
  constructor
  · exact regular
  · by_contra many
    have index : 64 ∈ result.stored := by
      rw [holds.stored, List.mem_range, List.length_map]
      omega
    exact absurd (listed.stored 64 index) (by decide)

theorem setupEntries_iff (adds : Adds add) :
    (∀ listing, ∃ fuel result, setupEntries madt type add fuel listing = some result ∧ madt.Listed type result) ↔
      madt.Fits type := by
  constructor
  · intro parses
    obtain ⟨_, _, walked, listed⟩ := parses ⟨fun _ => 0, 0, [], [], []⟩
    exact fits_of_setupEntries adds walked listed
  · intro fits listing
    exact setupEntries_listed adds fits

end Setup

theorem madt_parsed_iff (madt : Madt) :
    (madt.Parses ioapicType apicSetupIOAPIC ↔ madt.Fits ioapicType) ∧
      (madt.Parses ioapicIsoType apicSetupIOAPICISO ↔ madt.Fits ioapicIsoType) :=
  ⟨setupEntries_iff (ioapic_adds madt.mem), setupEntries_iff listing_adds⟩

def twoEntries : Madt where
  mem address :=
    if address = 0x1004 then 66 else if address = 0x102c then 1 else if address = 0x102d then 12
    else if address = 0x1038 then 2 else if address = 0x1039 then 10 else 0
  base := 0x1000
  placed := by decide

theorem twoEntries_entries : twoEntries.entries = [44, 56] := by decide +kernel

theorem two_entries_regular : ∀ offset ∈ twoEntries.entries, twoEntries.Regular offset := by
  rw [twoEntries_entries]
  intro offset among
  rw [List.mem_pair] at among
  cases among with
  | inl first =>
    rw [first]
    exact ⟨by decide, by decide, by decide⟩
  | inr second =>
    rw [second]
    exact ⟨by decide, by decide, by decide⟩

theorem two_entries_parsed : twoEntries.Parses ioapicType apicSetupIOAPIC ∧
    twoEntries.Parses ioapicIsoType apicSetupIOAPICISO := by
  have room (type : Byte) : (twoEntries.entriesOf type).length ≤ 64 := by
    apply Nat.le_trans (List.length_filter_le _ _)
    rw [twoEntries_entries]
    decide
  constructor
  · exact (madt_parsed_iff twoEntries).1.mpr ⟨two_entries_regular, room _⟩
  · exact (madt_parsed_iff twoEntries).2.mpr ⟨two_entries_regular, room _⟩

/-- A table whose only entry, an I/O APIC, has length zero. -/
def emptyEntry : Madt where
  mem address := if address = 0x1004 then 46 else if address = 0x102c then 1 else 0
  base := 0x1000
  placed := by decide

theorem empty_entry_never_ends (fuel : Nat) (listing : Listing) : apicSetupIOAPIC emptyEntry fuel listing = none := by
  apply walk_stuck
  · decide
  · decide

theorem empty_entry_not_parsed : ¬ emptyEntry.Parses ioapicType apicSetupIOAPIC := by
  intro parses
  obtain ⟨fuel, _, walked, _⟩ := parses ⟨fun _ => 0, 0, [], [], []⟩
  rw [empty_entry_never_ends] at walked
  cases walked

end Neutrino.Apic
