import Neutrino.Library.Partial
import Neutrino.Physical.Init

namespace Neutrino.Physical

open Library

/-- `struct stivale2_mmap_entry`. -/
structure StivaleMmapEntry where
  base : W64
  length : W64
  type : W32
  deriving DecidableEq, Repr

def stivale2MmapUsable : W32 := 1#32
def stivale2MmapAcpiReclaimable : W32 := 3#32
def stivale2MmapAcpiNvs : W32 := 4#32
def stivale2MmapKernelAndModules : W32 := 0x1001#32
def stivale2MmapFramebuffer : W32 := 0x1002#32

def regionType (type : W32) : MemoryPhysicalRegionType :=
  if type = stivale2MmapUsable then .usable
  else if type = stivale2MmapKernelAndModules then .kernel
  else if type = stivale2MmapFramebuffer then .framebuffer
  else if type = stivale2MmapAcpiNvs then .acpiRsvd
  else if type = stivale2MmapAcpiReclaimable then .acpiRclm
  else .reserved

def StivaleMmapEntry.region (entry : StivaleMmapEntry) : MemoryPhysicalRegion :=
  ⟨entry.base, entry.length, entry.base + entry.length, regionType entry.type⟩

/-- Code on the array `entries`. It has no result where it reads or writes outside of an array,
    or where the sum of two ints overflows. -/
abbrev BootM := StateT (List MemoryPhysicalRegion) Option

def readSlot (i : Nat) : BootM MemoryPhysicalRegion := fun entries => entries[i]?.map fun slot => (slot, entries)

def modifySlot (i : Nat) (f : MemoryPhysicalRegion → MemoryPhysicalRegion) : BootM Unit := fun entries =>
  if i < entries.length then some ((), entries.modify i f) else none

def readEntry (memmap : List StivaleMmapEntry) (i : Nat) : BootM StivaleMmapEntry := fun entries =>
  memmap[i]?.map fun entry => (entry, entries)

def addInt (a b : Nat) : BootM Nat := fun entries => if a + b < 2 ^ 31 then some (a + b, entries) else none

/-- The inner loop of `kinit_mem_manager`, `fuel` iterations at most. -/
def mergeUsable (memmap : List StivaleMmapEntry) (i : Nat) : (fuel lookahead : Nat) → BootM Nat
  | 0, _ => fun _ => none
  | fuel + 1, lookahead => do
    if (← readSlot i).type = .usable then
      let next ← readEntry memmap (i + lookahead)
      if next.type = stivale2MmapUsable then
        modifySlot i fun slot => { slot with size := slot.size + next.length }
        modifySlot i fun slot => { slot with limit := next.base + next.length }
        modifySlot (← addInt i lookahead) fun slot => { slot with type := .invalid }
        mergeUsable memmap i fuel (← addInt lookahead 1)
      else return lookahead
    else return lookahead

/-- The count of entries is kept in a `uint32_t`. -/
def memmapEntries (memmap : List StivaleMmapEntry) : Nat := memmap.length % 2 ^ 32

/-- The outer loop of `kinit_mem_manager`, `fuel` iterations at most. -/
def kinitMemManager (memmap : List StivaleMmapEntry) : (fuel i : Nat) → BootM Unit
  | 0, _ => fun _ => none
  | fuel + 1, i => do
    if i < memmapEntries memmap then
      let entry ← readEntry memmap i
      modifySlot i fun _ => entry.region
      if (← addInt i 1) < memmapEntries memmap then
        let lookahead ← mergeUsable memmap i (fuel + 1) 1
        kinitMemManager memmap fuel (← addInt i lookahead)
      else kinitMemManager memmap fuel (← addInt i 1)
    else return ()

/-- The loop ends, and leaves the slots in the array. -/
def Produces (memmap : List StivaleMmapEntry) (prior slots : List MemoryPhysicalRegion) : Prop :=
  ∃ fuel, kinitMemManager memmap fuel 0 prior = some ((), slots)

def StivaleMmapEntry.Contains (entry : StivaleMmapEntry) (address : Nat) : Prop :=
  entry.base.toNat ≤ address ∧ address < entry.base.toNat + entry.length.toNat

/-- The slots say what the memory map says. -/
structure Converted (memmap : List StivaleMmapEntry) (slots : List MemoryPhysicalRegion) : Prop where
  count : slots.length = memmap.length
  usable : ∀ address : Nat, (∃ slot ∈ slots, slot.type = .usable ∧ slot.base.toNat ≤ address ∧ address < slot.limit.toNat) ↔
    ∃ entry ∈ memmap, entry.type = stivale2MmapUsable ∧ entry.Contains address
  limits : ∀ slot ∈ slots, slot.type ≠ .invalid → slot.limit = slot.base + slot.size
  others : ∀ (i : Nat) entry, memmap[i]? = some entry → entry.type ≠ stivale2MmapUsable → slots[i]? = some entry.region

/-- All of `pmm` but the array of regions. -/
def Pmm.outcome (p : Pmm) : Pmm := { p with regions := [] }

/-- The map is converted, and what `init_pmm` makes of the slots does not depend on what the array
    held before. -/
structure Faithful (memmap : List StivaleMmapEntry) : Prop where
  converts : ∀ prior, prior.length = memmap.length → ∃ slots, Produces memmap prior slots ∧ Converted memmap slots
  settled : ∀ prior prior' slots slots' words, prior.length = memmap.length → prior'.length = memmap.length →
    Produces memmap prior slots → Produces memmap prior' slots' →
    (initPmm slots words).outcome = (initPmm slots' words).outcome

def usableAt (memmap : List StivaleMmapEntry) (i : Nat) : Prop :=
  ∃ entry, memmap[i]? = some entry ∧ entry.type = stivale2MmapUsable

/-- No two usable entries follow each other, the usable ones end below `2 ^ 64`, and an int can
    count the entries. -/
structure Plain (memmap : List StivaleMmapEntry) : Prop where
  separate : ∀ i, ¬ (usableAt memmap i ∧ usableAt memmap (i + 1))
  inside : ∀ entry ∈ memmap, entry.type = stivale2MmapUsable →
    entry.length = 0#64 ∨ entry.base.toNat + entry.length.toNat < 2 ^ 64
  short : memmap.length < 2 ^ 31

variable {memmap : List StivaleMmapEntry} {entries : List MemoryPhysicalRegion} {i lookahead fuel : Nat}

theorem regionType_usable {type : W32} : regionType type = .usable ↔ type = stivale2MmapUsable := by
  unfold regionType
  constructor
  · intro same
    by_contra other
    rw [if_neg other] at same
    split at same
    · cases same
    · split at same
      · cases same
      · split at same
        · cases same
        · split at same <;> cases same
  · intro same
    rw [if_pos same]

section Steps

theorem readSlot_ensures : Ensures entries (readSlot i) fun slot entries' =>
    entries' = entries ∧ entries[i]? = some slot := by
  intro slot entries' taken
  obtain ⟨found, here, same⟩ := Option.map_eq_some_iff.mp taken
  cases same
  exact ⟨rfl, here⟩

theorem readEntry_ensures : Ensures entries (readEntry memmap i) fun entry entries' =>
    entries' = entries ∧ memmap[i]? = some entry := by
  intro entry entries' taken
  obtain ⟨found, here, same⟩ := Option.map_eq_some_iff.mp taken
  cases same
  exact ⟨rfl, here⟩

theorem modifySlot_ensures {f : MemoryPhysicalRegion → MemoryPhysicalRegion} :
    Ensures entries (modifySlot i f) fun _ entries' => i < entries.length ∧ entries' = entries.modify i f := by
  intro _ entries' taken
  unfold modifySlot at taken
  split at taken
  · rename_i inside
    cases taken
    exact ⟨inside, rfl⟩
  · cases taken

theorem addInt_ensures {a b : Nat} : Ensures entries (addInt a b) fun sum entries' =>
    entries' = entries ∧ sum = a + b ∧ a + b < 2 ^ 31 := by
  intro sum entries' taken
  unfold addInt at taken
  split at taken
  · rename_i small
    cases taken
    exact ⟨rfl, rfl, small⟩
  · cases taken

end Steps

section Plain

theorem readSlot_eq {slot : MemoryPhysicalRegion} (here : entries[i]? = some slot) :
    readSlot i entries = some (slot, entries) := by
  rw [readSlot, here]
  rfl

theorem readEntry_eq {entry : StivaleMmapEntry} (here : memmap[i]? = some entry) :
    readEntry memmap i entries = some (entry, entries) := by
  rw [readEntry, here]
  rfl

theorem mergeUsable_eq {slot : MemoryPhysicalRegion} (here : entries[i]? = some slot)
    (apart : slot.type = .usable → ∃ next, memmap[i + lookahead]? = some next ∧ next.type ≠ stivale2MmapUsable) :
    mergeUsable memmap i (fuel + 1) lookahead entries = some (lookahead, entries) := by
  rw [mergeUsable, bind_eq (readSlot_eq here)]
  by_cases usable : slot.type = .usable
  · obtain ⟨next, there, other⟩ := apart usable
    rw [if_pos usable, bind_eq (readEntry_eq there), if_neg other]
    rfl
  · rw [if_neg usable]
    rfl

variable (plain : Plain memmap)
include plain

theorem kinit_round {entry : StivaleMmapEntry} (here : memmap[i]? = some entry) (full : entries.length = memmap.length) :
    kinitMemManager memmap (fuel + 1) i entries =
      kinitMemManager memmap fuel (i + 1) (entries.modify i fun _ => entry.region) := by
  have short := plain.short
  have room : i < memmap.length := (List.getElem?_eq_some_iff.mp here).1
  have count : memmapEntries memmap = memmap.length := Nat.mod_eq_of_lt (by omega)
  have stored : modifySlot i (fun _ => entry.region) entries = some ((), entries.modify i fun _ => entry.region) :=
    if_pos (by omega)
  have added (es : List MemoryPhysicalRegion) : addInt i 1 es = some (i + 1, es) := if_pos (by omega)
  have slot : (entries.modify i fun _ => entry.region)[i]? = some entry.region := by
    rw [List.getElem?_modify, List.getElem?_eq_getElem (by omega)]
    simp
  rw [kinitMemManager, count, if_pos room, bind_eq (readEntry_eq here), bind_eq stored, bind_eq (added _)]
  by_cases more : i + 1 < memmap.length
  · have apart : entry.region.type = .usable →
        ∃ next, memmap[i + 1]? = some next ∧ next.type ≠ stivale2MmapUsable := by
      intro usable
      refine ⟨memmap[i + 1], List.getElem?_eq_getElem more, fun both => plain.separate i ⟨?_, ?_⟩⟩
      · exact ⟨entry, here, regionType_usable.mp usable⟩
      · exact ⟨_, List.getElem?_eq_getElem more, both⟩
    rw [if_pos more, bind_eq (mergeUsable_eq slot apart), bind_eq (added _)]
  · rw [if_neg more, bind_eq (added _)]

theorem kinit_plain (fuel : Nat) (low : i ≤ memmap.length)
    (done : ∀ k < i, entries[k]? = memmap[k]?.map StivaleMmapEntry.region) (full : entries.length = memmap.length) :
    kinitMemManager memmap fuel i entries =
      if memmap.length < fuel + i then some ((), memmap.map StivaleMmapEntry.region) else none := by
  induction fuel generalizing i entries with
  | zero =>
    rw [if_neg (by omega)]
    rfl
  | succ fuel ih =>
    rcases Nat.lt_or_eq_of_le low with room | ended
    · have here : memmap[i]? = some memmap[i] := List.getElem?_eq_getElem room
      rw [kinit_round plain here full, Nat.add_right_comm fuel 1 i]
      refine ih room ?_ (by rw [List.length_modify, full])
      intro k before
      rw [List.getElem?_modify]
      by_cases last : i = k
      · subst last
        rw [List.getElem?_eq_getElem (by omega), here]
        simp
      · rw [done k (by omega)]
        simp [last]
    · have short := plain.short
      have count : memmapEntries memmap = memmap.length := Nat.mod_eq_of_lt (by omega)
      have all : entries = memmap.map StivaleMmapEntry.region := by
        apply List.ext_getElem?
        intro k
        rw [List.getElem?_map]
        by_cases before : k < i
        · exact done k before
        · rw [List.getElem?_eq_none (by omega), List.getElem?_eq_none (by omega)]
          rfl
      rw [kinitMemManager, if_neg (by omega), if_pos (by omega), ← all]
      rfl

theorem produces_plain (full : entries.length = memmap.length) (slots : List MemoryPhysicalRegion) :
    Produces memmap entries slots ↔ slots = memmap.map StivaleMmapEntry.region := by
  have result (fuel : Nat) := kinit_plain plain fuel (Nat.zero_le _) nofun full
  constructor
  · rintro ⟨fuel, taken⟩
    rw [result] at taken
    split at taken
    · cases taken
      rfl
    · cases taken
  · rintro rfl
    exact ⟨memmap.length + 1, by rw [result, if_pos (Nat.lt_succ_self _)]⟩

theorem converted_plain : Converted memmap (memmap.map StivaleMmapEntry.region) where
  count := List.length_map _
  usable := by
    have same : ∀ entry ∈ memmap, entry.type = stivale2MmapUsable → ∀ address,
        (entry.base.toNat ≤ address ∧ address < entry.region.limit.toNat ↔ entry.Contains address) := by
      intro entry member usable address
      have sum : entry.region.limit = entry.base + entry.length := rfl
      rw [StivaleMmapEntry.Contains, sum]
      rcases plain.inside entry member usable with empty | low
      · rw [empty, BitVec.add_zero]
        simp
      · rw [BitVec.toNat_add_of_lt low]
    intro address
    simp only [List.mem_map, exists_exists_and_eq_and]
    constructor
    · rintro ⟨entry, member, usable, inside⟩
      have usable := regionType_usable.mp usable
      exact ⟨entry, member, usable, (same entry member usable address).mp inside⟩
    · rintro ⟨entry, member, usable, inside⟩
      exact ⟨entry, member, regionType_usable.mpr usable, (same entry member usable address).mpr inside⟩
  limits := by
    intro slot member _
    obtain ⟨entry, -, rfl⟩ := List.mem_map.mp member
    rfl
  others i entry here _ := by rw [List.getElem?_map, here]; rfl

theorem faithful_plain : Faithful memmap where
  converts prior full := ⟨_, (produces_plain plain full _).mpr rfl, converted_plain plain⟩
  settled prior prior' slots slots' words full full' made made' := by
    rw [(produces_plain plain full _).mp made, (produces_plain plain full' _).mp made']

end Plain

section Counts

variable {slots : List MemoryPhysicalRegion}

theorem kinit_cases : Ensures entries (kinitMemManager memmap (fuel + 1) i) fun _ slots =>
    memmapEntries memmap ≤ i ∧ slots = entries ∨
    ∃ entry lookahead entries', i < memmapEntries memmap ∧ memmap[i]? = some entry ∧
      (entries.modify i fun _ => entry.region)[i]? = some entry.region ∧
      (lookahead = 1 ∧ entries' = entries.modify i (fun _ => entry.region) ∧ memmapEntries memmap ≤ i + 1 ∨
        mergeUsable memmap i (fuel + 1) 1 (entries.modify i fun _ => entry.region) = some (lookahead, entries')) ∧
      i + lookahead < 2 ^ 31 ∧ kinitMemManager memmap fuel (i + lookahead) entries' = some ((), slots) := by
  rw [kinitMemManager]
  split
  · rename_i room
    refine readEntry_ensures.bind ?_
    rintro entry entries ⟨rfl, here⟩
    refine modifySlot_ensures.bind ?_
    rintro _ _ ⟨inside, rfl⟩
    have slot : (entries.modify i fun _ => entry.region)[i]? = some entry.region := by
      rw [List.getElem?_modify, List.getElem?_eq_getElem inside]
      simp
    refine addInt_ensures.bind ?_
    rintro _ _ ⟨rfl, rfl, -⟩
    split
    · intro _ slots taken
      obtain ⟨lookahead, entries', merges, taken⟩ := bind_some taken
      obtain ⟨_, _, added, taken⟩ := bind_some taken
      obtain ⟨rfl, rfl, small⟩ := addInt_ensures _ _ added
      exact .inr ⟨entry, lookahead, _, room, here, slot, .inr merges, small, taken⟩
    · rename_i final
      refine addInt_ensures.bind ?_
      rintro _ _ ⟨rfl, rfl, small⟩ _ slots taken
      exact .inr ⟨entry, 1, _, room, here, slot, .inl ⟨rfl, rfl, Nat.le_of_not_lt final⟩, small, taken⟩
  · rename_i ended
    exact .pure (.inl ⟨Nat.le_of_not_lt ended, rfl⟩)

theorem kinit_overflows (many : 2 ^ 31 ≤ memmapEntries memmap) (low : i < 2 ^ 31) :
    Ensures entries (kinitMemManager memmap fuel i) fun _ _ => False := by
  induction fuel generalizing i entries with
  | zero => exact .of_none rfl
  | succ fuel ih =>
    refine kinit_cases.mono ?_
    rintro _ slots (⟨ended, -⟩ | ⟨entry, lookahead, entries', -, -, -, -, small, rest⟩)
    · omega
    · exact ih small _ _ rest

theorem mergeUsable_past {slot : MemoryPhysicalRegion} (here : entries[i]? = some slot) (usable : slot.type = .usable)
    (past : memmap.length ≤ i + lookahead) : mergeUsable memmap i fuel lookahead entries = none := by
  cases fuel with
  | zero => rfl
  | succ fuel =>
    have outside : readEntry memmap (i + lookahead) entries = none := by
      rw [readEntry, List.getElem?_eq_none past]
      rfl
    rw [mergeUsable, bind_eq (readSlot_eq here), if_pos usable, bind_none outside]

def merged (i lookahead : Nat) (next : StivaleMmapEntry) (entries : List MemoryPhysicalRegion) :
    List MemoryPhysicalRegion :=
  (entries.modify i fun slot => { slot with size := slot.size + next.length, limit := next.base + next.length }).modify
    (i + lookahead) fun slot => { slot with type := .invalid }

theorem merged_slot (next : StivaleMmapEntry) {slot : MemoryPhysicalRegion} (here : entries[i]? = some slot)
    (ahead : 1 ≤ lookahead) : ∃ slot', (merged i lookahead next entries)[i]? = some slot' ∧ slot'.type = slot.type := by
  have other : lookahead ≠ 0 := by omega
  rw [merged, List.getElem?_modify, List.getElem?_modify, here]
  simp [other]

theorem mergeUsable_cases : Ensures entries (mergeUsable memmap i (fuel + 1) lookahead) fun lookahead' entries' =>
    lookahead' = lookahead ∧ entries' = entries ∧
      (∀ slot, entries[i]? = some slot → slot.type = .usable → ¬ usableAt memmap (i + lookahead)) ∨
    ∃ slot next, entries[i]? = some slot ∧ slot.type = .usable ∧ usableAt memmap (i + lookahead) ∧
      i + lookahead < entries.length ∧ mergeUsable memmap i fuel (lookahead + 1) (merged i lookahead next entries) =
        some (lookahead', entries') := by
  rw [mergeUsable]
  refine readSlot_ensures.bind ?_
  rintro slot _ ⟨rfl, here⟩
  split
  · rename_i usable
    refine readEntry_ensures.bind ?_
    rintro next _ ⟨rfl, there⟩
    split
    · rename_i follows
      refine modifySlot_ensures.bind ?_
      rintro _ _ ⟨-, rfl⟩
      refine modifySlot_ensures.bind ?_
      rintro _ _ ⟨-, rfl⟩
      refine addInt_ensures.bind ?_
      rintro _ _ ⟨rfl, rfl, -⟩
      refine modifySlot_ensures.bind ?_
      rintro _ _ ⟨room, rfl⟩
      refine addInt_ensures.bind ?_
      rintro _ _ ⟨rfl, rfl, -⟩
      rw [List.length_modify, List.length_modify] at room
      rw [List.modify_modify_eq]
      exact fun _ _ rest => .inr ⟨slot, next, here, usable, ⟨next, there, follows⟩, room, rest⟩
    · rename_i other
      refine .pure (.inl ⟨rfl, rfl, fun _ _ _ => ?_⟩)
      rintro ⟨next', there', follows⟩
      cases there.symm.trans there'
      exact other follows
  · rename_i other
    refine .pure (.inl ⟨rfl, rfl, fun slot' here' usable => ?_⟩)
    cases here.symm.trans here'
    exact absurd usable other

theorem mergeUsable_last {last : Nat} (ends : last + 1 = memmap.length) (low : i < last) (ahead : 1 ≤ lookahead) :
    Ensures entries (mergeUsable memmap i fuel lookahead) fun _ entries' => entries'[last]? = entries[last]? := by
  induction fuel generalizing lookahead entries with
  | zero => exact .of_none rfl
  | succ fuel ih =>
    refine mergeUsable_cases.mono ?_
    rintro lookahead' entries' (⟨-, rfl, -⟩ | ⟨slot, next, here, usable, -, -, rest⟩)
    · rfl
    · obtain ⟨slot', here', same⟩ := merged_slot next here ahead
      by_cases final : i + lookahead = last
      · have stuck : mergeUsable memmap i fuel (lookahead + 1) (merged i lookahead next entries) = none :=
          mergeUsable_past here' (same.trans usable) (by omega)
        rw [stuck] at rest
        cases rest
      · have other : i ≠ last := by omega
        rw [ih (by omega) _ _ rest, merged, List.getElem?_modify, List.getElem?_modify]
        simp [final, other]

theorem kinit_last {last : Nat} (ends : last + 1 = memmap.length) (few : memmapEntries memmap ≤ last) :
    Ensures entries (kinitMemManager memmap fuel i) fun _ slots => slots[last]? = entries[last]? := by
  induction fuel generalizing i entries with
  | zero => exact .of_none rfl
  | succ fuel ih =>
    refine kinit_cases.mono ?_
    rintro _ slots (⟨-, rfl⟩ | ⟨entry, lookahead, entries', room, -, -, round, -, rest⟩)
    · rfl
    · have other : i ≠ last := by omega
      have first : (entries.modify i fun _ => entry.region)[last]? = entries[last]? := by
        rw [List.getElem?_modify]
        simp [other]
      rw [ih _ _ rest, ← first]
      rcases round with ⟨-, rfl, -⟩ | merges
      · rfl
      · exact mergeUsable_last ends (by omega) (Nat.le_refl 1) _ _ merges

theorem Faithful.short (faithful : Faithful memmap) (nonempty : memmap ≠ []) : memmap.length < 2 ^ 31 := by
  have positive : 0 < memmap.length := List.length_pos_iff.mpr nonempty
  by_contra many
  let prior : List MemoryPhysicalRegion := List.replicate memmap.length ⟨0#64, 0#64, 1#64, .reserved⟩
  obtain ⟨slots, ⟨fuel, taken⟩, converted⟩ := faithful.converts prior List.length_replicate
  by_cases narrow : memmap.length < 2 ^ 32
  · have count : memmapEntries memmap = memmap.length := Nat.mod_eq_of_lt narrow
    exact kinit_overflows (by omega) (by decide) _ _ taken
  · have wrapped : memmapEntries memmap < 2 ^ 32 := Nat.mod_lt _ (by decide)
    have left := @kinit_last memmap prior 0 fuel (memmap.length - 1) (by omega) (by omega) _ _ taken
    have held : prior[memmap.length - 1]? = some ⟨0#64, 0#64, 1#64, .reserved⟩ :=
      List.getElem?_replicate_of_lt (by omega)
    have wrong := converted.limits _ (List.mem_of_getElem? (left.trans held)) nofun
    exact absurd wrong (by decide)

end Counts

section Slots

variable {slots : List MemoryPhysicalRegion} {j : Nat} {w : W64}

/-- The array with another size in one slot. -/
def retouch (j : Nat) (w : W64) (entries : List MemoryPhysicalRegion) : List MemoryPhysicalRegion :=
  entries.modify j fun slot => { slot with size := w }

theorem getElem?_retouch (other : j ≠ i) : (retouch j w entries)[i]? = entries[i]? := by
  rw [retouch, List.getElem?_modify]
  simp [other]

theorem readSlot_carries (other : j ≠ i) : Carries (retouch j w) entries (readSlot i) := by
  intro slot entries' taken
  obtain ⟨rfl, here⟩ := readSlot_ensures _ _ taken
  exact readSlot_eq ((getElem?_retouch other).trans here)

theorem readEntry_carries : Carries (retouch j w) entries (readEntry memmap i) := by
  intro entry entries' taken
  obtain ⟨rfl, here⟩ := readEntry_ensures _ _ taken
  exact readEntry_eq here

theorem addInt_carries {a b : Nat} : Carries (retouch j w) entries (addInt a b) := by
  intro sum entries' taken
  obtain ⟨rfl, rfl, small⟩ := addInt_ensures _ _ taken
  exact if_pos small

theorem modifySlot_carries {f : MemoryPhysicalRegion → MemoryPhysicalRegion}
    (alike : j = i → ∀ slot, f { slot with size := w } = { f slot with size := w }) :
    Carries (retouch j w) entries (modifySlot i f) := by
  intro _ entries' taken
  obtain ⟨inside, rfl⟩ := modifySlot_ensures _ _ taken
  rw [modifySlot, if_pos (by rw [retouch, List.length_modify]; exact inside)]
  by_cases same : j = i
  · subst same
    have swapped : (f ∘ fun slot => { slot with size := w }) = (fun slot => { slot with size := w }) ∘ f :=
      funext (alike rfl)
    rw [retouch, retouch, List.modify_modify_eq, List.modify_modify_eq, swapped]
  · rw [retouch, retouch, List.modify_modify_ne _ _ _ same]

theorem mergeUsable_carries (other : j ≠ i) :
    Carries (retouch j w) entries (mergeUsable memmap i fuel lookahead) := by
  induction fuel generalizing lookahead entries with
  | zero => exact Ensures.of_none rfl
  | succ fuel ih =>
    rw [mergeUsable]
    refine (readSlot_carries other).bind fun slot _ _ => ?_
    split
    · refine readEntry_carries.bind fun next _ _ => ?_
      split
      · refine (modifySlot_carries fun same => absurd same other).bind fun _ _ _ => ?_
        refine (modifySlot_carries fun same => absurd same other).bind fun _ _ _ => ?_
        refine addInt_carries.bind fun _ _ _ => ?_
        refine (modifySlot_carries fun _ _ => rfl).bind fun _ _ _ => ?_
        exact addInt_carries.bind fun _ _ _ => ih
      · exact .pure
    · exact .pure

theorem kinit_carries (behind : j < i) : Carries (retouch j w) entries (kinitMemManager memmap fuel i) := by
  induction fuel generalizing i entries with
  | zero => exact Ensures.of_none rfl
  | succ fuel ih =>
    have other : j ≠ i := by omega
    rw [kinitMemManager]
    split
    · refine readEntry_carries.bind fun entry _ _ => ?_
      refine (modifySlot_carries fun same => absurd same other).bind fun _ _ _ => ?_
      refine addInt_carries.bind fun _ _ _ => ?_
      split
      · refine (mergeUsable_carries other).bind fun lookahead _ _ => ?_
        refine addInt_carries.bind fun _ _ added => ih ?_
        obtain ⟨-, rfl, -⟩ := addInt_ensures _ _ added
        omega
      · refine addInt_carries.bind fun _ _ added => ih ?_
        obtain ⟨-, rfl, -⟩ := addInt_ensures _ _ added
        omega
    · exact .pure

def InvalidAt (j : Nat) (entries : List MemoryPhysicalRegion) : Prop :=
  ∃ slot, entries[j]? = some slot ∧ slot.type = .invalid

theorem InvalidAt.modify {f : MemoryPhysicalRegion → MemoryPhysicalRegion} (invalid : InvalidAt j entries)
    (alike : i = j → ∀ slot, slot.type = .invalid → (f slot).type = .invalid) : InvalidAt j (entries.modify i f) := by
  obtain ⟨slot, here, type⟩ := invalid
  by_cases same : i = j
  · exact ⟨f slot, by rw [List.getElem?_modify, here]; simp [same], alike same slot type⟩
  · exact ⟨slot, by rw [List.getElem?_modify, here]; simp [same], type⟩

theorem mergeUsable_invalid (invalid : InvalidAt j entries) :
    Ensures entries (mergeUsable memmap i fuel lookahead) fun _ entries' => InvalidAt j entries' := by
  induction fuel generalizing lookahead entries with
  | zero => exact .of_none rfl
  | succ fuel ih =>
    refine mergeUsable_cases.mono ?_
    rintro lookahead' entries' (⟨-, rfl, -⟩ | ⟨slot, next, -, -, -, -, rest⟩)
    · exact invalid
    · have kept : InvalidAt j (merged i lookahead next entries) := by
        apply InvalidAt.modify
        · exact invalid.modify fun _ _ type => type
        · exact fun _ _ _ => rfl
      exact ih kept _ _ rest

theorem mergeUsable_ahead :
    Ensures entries (mergeUsable memmap i fuel lookahead) fun lookahead' _ => lookahead ≤ lookahead' := by
  induction fuel generalizing lookahead entries with
  | zero => exact .of_none rfl
  | succ fuel ih =>
    refine mergeUsable_cases.mono ?_
    rintro lookahead' entries' (⟨rfl, -, -⟩ | ⟨slot, next, -, -, -, -, rest⟩)
    · exact Nat.le_refl _
    · exact Nat.le_of_succ_le (ih _ _ rest)

theorem kinit_invalid (behind : j < i) (invalid : InvalidAt j entries) :
    Ensures entries (kinitMemManager memmap fuel i) fun _ slots => InvalidAt j slots := by
  induction fuel generalizing i entries with
  | zero => exact .of_none rfl
  | succ fuel ih =>
    refine kinit_cases.mono ?_
    rintro _ slots (⟨-, rfl⟩ | ⟨entry, lookahead, entries', -, -, -, round, -, rest⟩)
    · exact invalid
    · have kept : InvalidAt j (entries.modify i fun _ => entry.region) :=
        invalid.modify fun same => absurd same (by omega)
      rcases round with ⟨-, rfl, -⟩ | merges
      · exact ih (by omega) kept _ _ rest
      · exact ih (by omega) (mergeUsable_invalid kept _ _ merges) _ _ rest

theorem mergeUsable_gives {slot : MemoryPhysicalRegion} (here : entries[i]? = some slot)
    (usable : slot.type = .usable) (follows : usableAt memmap (i + 1)) :
    Ensures entries (mergeUsable memmap i (fuel + 1) 1) fun lookahead entries' =>
      2 ≤ lookahead ∧ InvalidAt (i + 1) entries' := by
  refine mergeUsable_cases.mono ?_
  rintro lookahead entries' (⟨-, -, alone⟩ | ⟨slot, next, -, -, -, room, rest⟩)
  · exact absurd follows (alone slot here usable)
  · have given : InvalidAt (i + 1) (merged i 1 next entries) := by
      rw [merged, InvalidAt, List.getElem?_modify, List.getElem?_modify, List.getElem?_eq_getElem room]
      simp
    exact ⟨mergeUsable_ahead _ _ rest, mergeUsable_invalid given _ _ rest⟩

theorem kinit_round_carries (more : i + 1 < memmapEntries memmap) (other : j ≠ i)
    (rest : ∀ entry lookahead entries', memmap[i]? = some entry →
      mergeUsable memmap i (fuel + 1) 1 (entries.modify i fun _ => entry.region) = some (lookahead, entries') →
      Carries (retouch j w) entries' (kinitMemManager memmap fuel (i + lookahead))) :
    Carries (retouch j w) entries (kinitMemManager memmap (fuel + 1) i) := by
  rw [kinitMemManager, if_pos (by omega)]
  refine readEntry_carries.bind fun entry _ read => ?_
  obtain ⟨rfl, here⟩ := readEntry_ensures _ _ read
  refine (modifySlot_carries fun same => absurd same other).bind fun _ _ stored => ?_
  obtain ⟨-, rfl⟩ := modifySlot_ensures _ _ stored
  refine addInt_carries.bind fun _ _ added => ?_
  obtain ⟨rfl, rfl, -⟩ := addInt_ensures _ _ added
  rw [if_pos more]
  refine (mergeUsable_carries other).bind fun lookahead entries' merges => ?_
  refine addInt_carries.bind fun _ _ added => ?_
  obtain ⟨rfl, rfl, -⟩ := addInt_ensures _ _ added
  exact rest entry lookahead _ here merges

theorem kinit_merges (whole : memmapEntries memmap = memmap.length) {k : Nat} (first : usableAt memmap k)
    (second : usableAt memmap (k + 1)) (low : i ≤ k)
    (taken : kinitMemManager memmap fuel i entries = some ((), slots)) :
    ∃ j, i < j ∧ InvalidAt j slots ∧ ∀ w, Carries (retouch j w) entries (kinitMemManager memmap fuel i) := by
  have bound : k + 1 < memmap.length := by
    obtain ⟨_, inside, -⟩ := second
    exact (List.getElem?_eq_some_iff.mp inside).1
  induction fuel generalizing i entries with
  | zero => cases taken
  | succ fuel ih =>
    have more : i + 1 < memmapEntries memmap := by omega
    rcases kinit_cases _ _ taken with ⟨ended, -⟩ | ⟨entry, lookahead, entries', -, here, slot, ⟨-, -, final⟩ | merges, -, rest⟩
    · omega
    · omega
    by_cases both : entry.type = stivale2MmapUsable ∧ usableAt memmap (i + 1)
    · have gives : Ensures _ (mergeUsable memmap i (fuel + 1) 1) _ :=
        mergeUsable_gives slot (regionType_usable.mpr both.1) both.2
      obtain ⟨ahead, given⟩ := gives _ _ merges
      refine ⟨i + 1, Nat.lt_succ_self i, kinit_invalid (by omega) given _ _ rest, fun w => ?_⟩
      refine kinit_round_carries more (Nat.succ_ne_self i) fun entry' _ _ here' merges' => ?_
      cases here.symm.trans here'
      have ahead := (gives _ _ merges').1
      exact kinit_carries (by omega)
    · have alone : ∀ lookahead' entries'', mergeUsable memmap i (fuel + 1) 1 (entries.modify i fun _ => entry.region) =
          some (lookahead', entries'') → lookahead' = 1 ∧ entries'' = entries.modify i fun _ => entry.region := by
        intro lookahead' entries'' merges
        rcases mergeUsable_cases _ _ merges with ⟨one, same, -⟩ | ⟨slot', next, there, usable, follows, -, -⟩
        · exact ⟨one, same⟩
        · cases slot.symm.trans there
          exact absurd ⟨regionType_usable.mp usable, follows⟩ both
      obtain ⟨rfl, rfl⟩ := alone _ _ merges
      have later : i ≠ k := by
        rintro rfl
        obtain ⟨entry', here', usable⟩ := first
        cases here.symm.trans here'
        exact both ⟨usable, second⟩
      obtain ⟨j, behind, given, carries⟩ := ih (by omega) rest
      refine ⟨j, by omega, given, fun w => ?_⟩
      refine kinit_round_carries more (by omega) fun entry' _ _ here' merges' => ?_
      cases here.symm.trans here'
      obtain ⟨rfl, rfl⟩ := alone _ _ merges'
      exact carries w

end Slots

section Blocks

variable {slots : List MemoryPhysicalRegion} {j : Nat} {w : W64}

/-- How many blocks `init_pmm` marks for a region. -/
def MemoryPhysicalRegion.marked (r : MemoryPhysicalRegion) : Nat :=
  if r.type = .usable then 0 else (r.size.setWidth 32 / 0x1000#32).toNat

theorem markUsedLoop_usedBlocks (blocks : Nat) (start : Int) (p : Pmm) :
    (markUsedLoop blocks start p).usedBlocks = p.usedBlocks + BitVec.ofNat 64 blocks := by
  induction blocks generalizing start p with
  | zero => simp [markUsedLoop]
  | succ blocks ih =>
    have one : (pmmUpdateBlocks (pmmMapSet p start) 1#32).usedBlocks = p.usedBlocks + 1#64 := rfl
    rw [markUsedLoop, ih, one, BitVec.add_assoc, ← BitVec.ofNat_add, Nat.add_comm 1]

theorem markUnusable_usedBlocks (entries : List MemoryPhysicalRegion) (p : Pmm) :
    (entries.foldl markUnusable p).usedBlocks =
      p.usedBlocks + BitVec.ofNat 64 (entries.map MemoryPhysicalRegion.marked).sum := by
  induction entries generalizing p with
  | nil => simp
  | cons entry entries ih =>
    have one : (markUnusable p entry).usedBlocks = p.usedBlocks + BitVec.ofNat 64 entry.marked := by
      unfold markUnusable MemoryPhysicalRegion.marked
      by_cases usable : entry.type = .usable
      · simp [usable]
      · rw [if_pos usable, if_neg usable]
        exact markUsedLoop_usedBlocks _ _ _
    rw [List.foldl_cons, ih, one, List.map_cons, List.sum_cons, BitVec.ofNat_add, BitVec.add_assoc]

theorem placeMap_usedBlocks (entries : List MemoryPhysicalRegion) (p : Pmm) :
    (entries.foldl placeMap p).usedBlocks = p.usedBlocks := by
  induction entries generalizing p with
  | nil => rfl
  | cons entry entries ih =>
    rw [List.foldl_cons, ih, placeMap]
    split <;> split <;> rfl

theorem initPmm_usedBlocks (entries : List MemoryPhysicalRegion) (words : WordBitmap 32) :
    (initPmm entries words).usedBlocks = BitVec.ofNat 64 ((mapSizeOf entries).setWidth 32 / 0x1000#32).toNat +
      BitVec.ofNat 64 (entries.map MemoryPhysicalRegion.marked).sum := by
  have used := placeMap_usedBlocks entries (pmmBeforeLoops entries words)
  have size := (placeMap_fold_same entries (pmmBeforeLoops entries words)).2
  unfold initPmm
  rw [markUnusable_usedBlocks]
  show (markUsedLoop _ _ _).usedBlocks + _ = _
  rw [markUsedLoop_usedBlocks]
  show (entries.foldl placeMap (pmmBeforeLoops entries words)).usedBlocks + BitVec.ofNat 64
    (((entries.foldl placeMap (pmmBeforeLoops entries words)).mapSize.setWidth 32) / 0x1000#32).toNat + _ = _
  rw [used, size]
  show 0#64 + _ + _ = _
  rw [BitVec.zero_add]
  rfl

theorem retouch_succ (entry : MemoryPhysicalRegion) : retouch (j + 1) w (entry :: slots) = entry :: retouch j w slots :=
  List.modify_succ_cons ..

theorem find?_retouch (invalid : InvalidAt j slots) : (retouch j w slots).find? (fun r => r.type = .framebuffer) =
    slots.find? fun r => r.type = .framebuffer := by
  obtain ⟨slot, here, type⟩ := invalid
  induction slots generalizing j with
  | nil => cases here
  | cons entry slots ih =>
    cases j with
    | zero =>
      cases here
      simp [retouch, type]
    | succ j =>
      rw [retouch_succ, List.find?_cons, List.find?_cons, ih here]

theorem mapSizeOf_retouch (later : 0 < j) (invalid : InvalidAt j slots) :
    mapSizeOf (retouch j w slots) = mapSizeOf slots := by
  have last : ((retouch j w slots).getLastD ⟨0, 0, 0, .invalid⟩).limit = (slots.getLastD ⟨0, 0, 0, .invalid⟩).limit := by
    rw [List.getLastD_eq_getLast?, List.getLastD_eq_getLast?, List.getLast?_eq_getElem?, List.getLast?_eq_getElem?,
      retouch, List.length_modify, List.getElem?_modify]
    cases slots[slots.length - 1]? with
    | none => rfl
    | some slot =>
      show (if j = slots.length - 1 then _ else slot).limit = slot.limit
      split <;> rfl
  have head : (retouch j w slots).headD ⟨0, 0, 0, .invalid⟩ = slots.headD ⟨0, 0, 0, .invalid⟩ := by
    rw [List.headD_eq_head?_getD, List.headD_eq_head?_getD, List.head?_eq_getElem?, List.head?_eq_getElem?,
      getElem?_retouch (by omega)]
  have frame : pmmGetRegionByType (retouch j w slots) .framebuffer = pmmGetRegionByType slots .framebuffer := by
    rw [pmmGetRegionByType, find?_retouch invalid, head, pmmGetRegionByType]
  unfold mapSizeOf blocksOf pmmBeforeLoops
  simp only [last, head, frame]

theorem marked_retouch (invalid : InvalidAt j slots) : ((retouch j 0x1000#64 slots).map MemoryPhysicalRegion.marked).sum =
    ((retouch j 0#64 slots).map MemoryPhysicalRegion.marked).sum + 1 := by
  obtain ⟨slot, here, type⟩ := invalid
  induction slots generalizing j with
  | nil => cases here
  | cons entry slots ih =>
    cases j with
    | zero =>
      cases here
      simp [retouch, MemoryPhysicalRegion.marked, type]
      omega
    | succ j =>
      rw [retouch_succ, retouch_succ, List.map_cons, List.map_cons, List.sum_cons, List.sum_cons, ih here, Nat.add_assoc]

theorem outcome_retouch (later : 0 < j) (invalid : InvalidAt j slots) (words : WordBitmap 32) :
    (initPmm (retouch j 0x1000#64 slots) words).outcome ≠ (initPmm (retouch j 0#64 slots) words).outcome := by
  intro same
  have counts := congrArg Pmm.usedBlocks same
  change (initPmm (retouch j 0x1000#64 slots) words).usedBlocks =
    (initPmm (retouch j 0#64 slots) words).usedBlocks at counts
  rw [initPmm_usedBlocks, initPmm_usedBlocks, mapSizeOf_retouch later invalid, mapSizeOf_retouch later invalid,
    marked_retouch invalid, BitVec.ofNat_add] at counts
  generalize BitVec.ofNat 64 (List.map _ _).sum = others at counts
  bv_omega

end Blocks

theorem Faithful.separate (faithful : Faithful memmap) (nonempty : memmap ≠ []) (k : Nat) :
    ¬ (usableAt memmap k ∧ usableAt memmap (k + 1)) := by
  rintro ⟨first, second⟩
  have short := faithful.short nonempty
  have whole : memmapEntries memmap = memmap.length := Nat.mod_eq_of_lt (by omega)
  let prior : List MemoryPhysicalRegion := List.replicate memmap.length ⟨0#64, 0#64, 0#64, .reserved⟩
  have full : prior.length = memmap.length := List.length_replicate
  obtain ⟨slots, ⟨fuel, taken⟩, -⟩ := faithful.converts prior full
  obtain ⟨j, later, invalid, carries⟩ := kinit_merges whole first second (Nat.zero_le k) taken
  have retouched (w : W64) : (retouch j w prior).length = memmap.length := by rw [retouch, List.length_modify, full]
  refine outcome_retouch later invalid (fun _ => 0) ?_
  exact faithful.settled _ _ _ _ _ (retouched _) (retouched _) ⟨fuel, carries _ _ _ taken⟩ ⟨fuel, carries _ _ _ taken⟩

theorem Faithful.inside (faithful : Faithful memmap) : ∀ entry ∈ memmap, entry.type = stivale2MmapUsable →
    entry.length = 0#64 ∨ entry.base.toNat + entry.length.toNat < 2 ^ 64 := by
  intro entry member usable
  by_contra wraps
  push Not at wraps
  obtain ⟨solid, high⟩ := wraps
  obtain ⟨slots, -, converted⟩ := faithful.converts (List.replicate memmap.length ⟨0#64, 0#64, 0#64, .reserved⟩)
    List.length_replicate
  have bound := entry.base.isLt
  obtain ⟨slot, -, -, -, below⟩ := (converted.usable (2 ^ 64 - 1)).mpr ⟨entry, member, usable, by omega, by omega⟩
  have limit := slot.limit.isLt
  omega

/-- The memory map is converted faithfully just when no usable entries are merged. -/
theorem memmap_converted_iff (nonempty : memmap ≠ []) : Faithful memmap ↔ Plain memmap := by
  constructor
  · intro faithful
    exact ⟨faithful.separate nonempty, faithful.inside, faithful.short nonempty⟩
  · exact faithful_plain

def separateMap : List StivaleMmapEntry :=
  [⟨0x200000#64, 0x1000#64, 1#32⟩, ⟨0x201000#64, 0x1000#64, 2#32⟩, ⟨0x202000#64, 0x1000#64, 1#32⟩]

theorem separateMap_converted : Faithful separateMap := by
  refine (memmap_converted_iff (by decide)).mpr ⟨?_, by decide, by decide⟩
  rintro i ⟨⟨entry, here, usable⟩, ⟨next, there, follows⟩⟩
  match i with
  | 0 => cases there; cases follows
  | 1 => cases here; cases usable
  | i + 2 => cases there

def gapMap : List StivaleMmapEntry :=
  [⟨0x200000#64, 0x1000#64, 1#32⟩, ⟨0x400000#64, 0x1000#64, 1#32⟩, ⟨0x500000#64, 0x1000#64, 2#32⟩]

/-- What the array holds before the loop, with `size` at the address of the second entry. -/
def leftover (size : W64) : List MemoryPhysicalRegion :=
  [⟨0#64, 0#64, 0#64, .usable⟩, ⟨0x400000#64, size, 0#64, .usable⟩, ⟨0#64, 0#64, 0#64, .usable⟩]

def mergedSlots (size : W64) : List MemoryPhysicalRegion :=
  [⟨0x200000#64, 0x2000#64, 0x401000#64, .usable⟩, ⟨0x400000#64, size, 0#64, .invalid⟩,
    ⟨0x500000#64, 0x1000#64, 0x501000#64, .reserved⟩]

theorem gapMap_overrun (fuel : Nat) (prior : List MemoryPhysicalRegion) :
    kinitMemManager (gapMap.take 2) fuel 0 prior = none := by
  cases fuel with
  | zero => rfl
  | succ fuel =>
    have stops : Ensures prior (kinitMemManager (gapMap.take 2) (fuel + 1) 0) fun _ _ => False := by
      refine kinit_cases.mono ?_
      rintro _ _ (⟨ended, -⟩ | ⟨entry, lookahead, entries', -, here, slot, ⟨-, -, final⟩ | merges, -, -⟩)
      · exact absurd ended (by decide)
      · exact absurd final (by decide)
      cases here
      rcases mergeUsable_cases _ _ merges with ⟨-, -, alone⟩ | ⟨slot', next, there, usable, -, -, rest⟩
      · exact alone _ slot rfl ⟨_, rfl, rfl⟩
      · obtain ⟨slot'', here, same⟩ := merged_slot next there (Nat.le_refl 1)
        have stuck : mergeUsable (gapMap.take 2) 0 fuel 2 _ = none :=
          mergeUsable_past here (same.trans usable) (by decide)
        rw [stuck] at rest
        cases rest
    exact Option.eq_none_iff_forall_not_mem.mpr fun done taken => stops _ _ taken

/-- The merged slot takes in a hole between two entries, a usable block is marked for what the
    array held before, and a run at the end of the map is read past it. -/
theorem gapMap_not_converted : Produces gapMap (leftover 0#64) (mergedSlots 0#64) ∧
    Produces gapMap (leftover 0x1000#64) (mergedSlots 0x1000#64) ∧
    (∃ slot ∈ mergedSlots 0#64, slot.type = .usable ∧ slot.base.toNat ≤ 0x300000 ∧ 0x300000 < slot.limit.toNat ∧
      slot.limit ≠ slot.base + slot.size) ∧
    (∀ entry ∈ gapMap, ¬ entry.Contains 0x300000) ∧
    (initPmm (mergedSlots 0#64) fun _ => 0).used 0x400 = false ∧
    (initPmm (mergedSlots 0x1000#64) fun _ => 0).used 0x400 = true ∧
    ∀ fuel prior, kinitMemManager (gapMap.take 2) fuel 0 prior = none := by
  have marks : (initPmm (mergedSlots 0#64) fun _ => 0).used 0x400 = false ∧
      (initPmm (mergedSlots 0x1000#64) fun _ => 0).used 0x400 = true := by
    decide +kernel
  refine ⟨⟨4, rfl⟩, ⟨4, rfl⟩, ⟨_, List.mem_cons_self, by decide⟩, ?_, marks.1, marks.2, gapMap_overrun⟩
  simp [gapMap, StivaleMmapEntry.Contains]

end Neutrino.Physical
