import Mathlib.Data.List.Nodup
import Neutrino.Device.Search

namespace Neutrino.Pci

open Library

/-- Number 0 of a device, or any function of a multifunction device. -/
def Config.Function (c : Config) (slot : Slot) : Prop :=
  c.Present slot ∧ (slot.function = 0 ∨
    c.Present { slot with function := 0 } ∧ c.multifunction { slot with function := 0 } = true)

/-- The buses behind bridges, starting from bus 0. -/
inductive Config.Reachable (c : Config) : Byte → Prop
  | root : Reachable c 0
  | behind {slot : Slot} : Reachable c slot.bus → c.Function slot → c.Bridge slot → Reachable c (c.secondaryBus slot)

/-- The bridges form a tree. -/
structure BridgeTree (c : Config) : Prop where
  primary : ∀ slot, c.Present slot → c.Bridge slot → c.primaryBus slot = slot.bus
  secondary : ∀ slot, c.Present slot → c.Bridge slot → slot.bus < c.secondaryBus slot
  unshared : ∀ slot slot', c.Present slot → c.Bridge slot → c.Present slot' → c.Bridge slot' →
    c.secondaryBus slot = c.secondaryBus slot' → slot = slot'

def Slot.location (slot : Slot) : Location := ⟨slot.bus, slot.device.setWidth 8, slot.function.setWidth 8⟩

/-- The search comes to an end with one device for each function on a reachable bus, and none else. -/
def Enumerates (latch : Latch) (s : State) : Prop :=
  ∃ depth s', pciCheckAllBuses latch depth s = some ((), s') ∧ s'.found.Nodup ∧
    ∀ loc, loc ∈ s'.found ↔ ∃ slot, s.config.Reachable slot.bus ∧ s.config.Function slot ∧ slot.location = loc

/-- The topologies that the search is right for: all functions on bus 0, none of them a bridge or above
    number 3, and a host bridge that is not multifunction, or an absent one with nothing on the
    further buses that are then looked at. -/
structure Flat (c : Config) : Prop where
  functions : ∀ slot, slot.bus = 0 → c.Function slot → slot.function.toNat ≤ 3 ∧ ¬ c.Bridge slot
  host : c.multifunction ⟨0, 0, 0⟩ = true → ¬ c.Present ⟨0, 0, 0⟩ ∧
    ∀ bus ∈ scanned c, bus ≠ 0 → ∀ device, ¬ c.Present ⟨bus, device, 0⟩

section Locations

variable {c : Config} {slot : Slot} {bus dev : Byte} {loc : Location}

theorem slotOf_location (low : slot.function.toNat ≤ 3) :
    slotOf slot.bus (slot.device.setWidth 8) (slot.function.setWidth 8) = slot := by
  have function : ∀ f : BitVec 3, f.toNat ≤ 3 → (f.setWidth 8 &&& 3).setWidth 3 = f := by decide
  have device : ∀ d : BitVec 5, (d.setWidth 8).setWidth 5 = d := by decide
  rw [slotOf, function _ low, device]

theorem location_injective {slot slot' : Slot} (same : slot.location = slot'.location) : slot = slot' := by
  have device : ∀ d : BitVec 5, (d.setWidth 8).setWidth 5 = d := by decide
  have function : ∀ f : BitVec 3, (f.setWidth 8).setWidth 3 = f := by decide
  rcases Location.mk.inj same with ⟨bus, devices, functions⟩
  have devices := congrArg (BitVec.setWidth 5) devices
  have functions := congrArg (BitVec.setWidth 3) functions
  rw [device, device] at devices
  rw [function, function] at functions
  exact Slot.mk.injEq .. ▸ ⟨bus, devices, functions⟩

theorem mem_visitedDev : loc ∈ visitedDev c bus dev ↔ c.Present (slotOf bus dev 0) ∧ (loc = ⟨bus, dev, 0⟩ ∨
    c.multifunction (slotOf bus dev 0) = true ∧
      ∃ func ∈ ([1, 2, 3] : List Byte), c.Present (slotOf bus dev func) ∧ loc = ⟨bus, dev, func⟩) := by
  have one : ∀ func : Byte, loc ∈ (if c.vendor (slotOf bus dev func) = invalidVendor then []
      else [(⟨bus, dev, func⟩ : Location)]) ↔ c.Present (slotOf bus dev func) ∧ loc = ⟨bus, dev, func⟩ := by
    intro func
    rw [Config.Present]
    split <;> simp_all
  rw [visitedDev]
  by_cases absent : c.vendor (slotOf bus dev 0) = invalidVendor
  · simp [Config.Present]
  · rw [if_neg absent, List.mem_cons]
    have present : c.Present (slotOf bus dev 0) := absent
    by_cases several : c.multifunction (slotOf bus dev 0) = true
    · simp only [present, several, true_and, ↓reduceIte, List.mem_flatMap, one]
    · simp only [present, several, true_and, ↓reduceIte, List.not_mem_nil, false_and, Bool.false_eq_true]

theorem mem_devices (device : BitVec 5) : device.setWidth 8 ∈ devices := by
  refine List.mem_map.mpr ⟨device.toNat, List.mem_range.mpr device.isLt, ?_⟩
  apply BitVec.eq_of_toNat_eq
  rw [BitVec.toNat_ofNat, BitVec.toNat_setWidth]

theorem devices_nodup : devices.Nodup := by
  refine List.Nodup.map_on (fun a inside b inside' same => ?_) List.nodup_range
  rw [List.mem_range] at inside inside'
  have numbers := congrArg BitVec.toNat same
  rw [BitVec.toNat_ofNat, BitVec.toNat_ofNat] at numbers
  omega

theorem devices_eq : ∀ dev ∈ devices, (dev.setWidth 5).setWidth 8 = dev := by decide

theorem mem_visited (low : slot.function.toNat ≤ 3) : slot.location ∈ visited c slot.bus ↔ c.Function slot := by
  have here := slotOf_location low
  have first : slotOf slot.bus (slot.device.setWidth 8) 0 = { slot with function := 0 } :=
    @slotOf_location { slot with function := 0 } (show (0 : BitVec 3).toNat ≤ 3 by decide)
  have narrow : ∀ f : BitVec 3, f.setWidth 8 = 0#8 → f = 0 := by decide
  have other : ∀ f : BitVec 3, f.toNat ≤ 3 → f ≠ 0 → f.setWidth 8 ∈ ([1, 2, 3] : List Byte) := by decide
  constructor
  · intro member
    rcases List.mem_flatMap.mp member with ⟨dev, -, inside⟩
    rcases mem_visitedDev.mp inside with ⟨present, same | ⟨several, func, -, there, same⟩⟩
    · rcases Location.mk.inj same with ⟨-, rfl, zero⟩
      rw [← zero, here] at present
      exact ⟨present, .inl (narrow _ zero)⟩
    · rcases Location.mk.inj same with ⟨-, rfl, rfl⟩
      rw [here] at there
      rw [first] at present several
      exact ⟨there, .inr ⟨present, several⟩⟩
  · rintro ⟨present, number⟩
    refine List.mem_flatMap.mpr ⟨slot.device.setWidth 8, mem_devices _, mem_visitedDev.mpr ?_⟩
    rw [first]
    by_cases zero : slot.function = 0
    · have same : slot = { slot with function := 0 } := by rw [← zero]
      rw [← same]
      refine ⟨present, .inl ?_⟩
      rw [Slot.location, zero]
      rfl
    · rcases number with zero' | ⟨present', several⟩
      · exact absurd zero' zero
      · refine ⟨present', .inr ⟨several, slot.function.setWidth 8, other _ low zero, ?_, rfl⟩⟩
        rw [here]
        exact present

theorem visited_slot (member : loc ∈ visited c bus) :
    ∃ slot : Slot, slot.bus = bus ∧ slot.function.toNat ≤ 3 ∧ slot.location = loc := by
  rcases List.mem_flatMap.mp member with ⟨dev, among, inside⟩
  rcases mem_visitedDev.mp inside with ⟨-, rfl | ⟨-, func, other, -, rfl⟩⟩
  · exact ⟨⟨bus, dev.setWidth 5, 0⟩, rfl, show (0 : BitVec 3).toNat ≤ 3 by decide, by rw [Slot.location, devices_eq dev among]; rfl⟩
  · have small : ∀ func ∈ ([1, 2, 3] : List Byte), (func.setWidth 3).toNat ≤ 3 ∧ (func.setWidth 3).setWidth 8 = func := by
      decide
    refine ⟨⟨bus, dev.setWidth 5, func.setWidth 3⟩, rfl, (small func other).1, ?_⟩
    rw [Slot.location, devices_eq dev among, (small func other).2]

theorem visited_nodup (c : Config) (bus : Byte) : (visited c bus).Nodup := by
  rw [visited, List.nodup_flatMap]
  constructor
  · intro dev _
    rw [visitedDev]
    split
    · exact List.nodup_nil
    split
    · simp only [List.flatMap_cons, List.flatMap_nil, List.append_nil]
      split <;> split <;> split <;> simp
    · exact List.nodup_singleton _
  · refine devices_nodup.imp fun {a b} apart => ?_
    intro loc first second
    have device : ∀ dev, loc ∈ visitedDev c bus dev → loc.device = dev := by
      intro dev member
      rcases mem_visitedDev.mp member with ⟨-, rfl | ⟨-, func, -, -, rfl⟩⟩ <;> rfl
    exact apart ((device a first).symm.trans (device b second))

theorem visited_eq_nil (absent : ∀ device, ¬ c.Present ⟨bus, device, 0⟩) : visited c bus = [] := by
  refine List.flatMap_eq_nil_iff.mpr fun dev _ => ?_
  have missing : c.vendor (slotOf bus dev 0) = invalidVendor := not_not.mp (absent (dev.setWidth 5))
  rw [visitedDev, if_pos missing]

end Locations

section Topology

variable {c : Config}

theorem slot_of_visited {slot : Slot} (low : slot.function.toNat ≤ 3) : slot.location.slot = slot := slotOf_location low

theorem reachable_zero {bus : Byte} (plain : ∀ slot, slot.bus = 0 → c.Function slot → ¬ c.Bridge slot)
    (reachable : c.Reachable bus) : bus = 0 := by
  induction reachable with
  | root => rfl
  | behind _ there isBridge ih => exact absurd isBridge (plain _ ih there)

namespace Flat

variable (flat : Flat c)
include flat

theorem plain : ∀ bus ∈ scanned c, ∀ loc ∈ visited c bus, ¬ c.Bridge loc.slot := by
  intro bus started loc member
  by_cases zero : bus = 0
  · rcases visited_slot member with ⟨slot, rfl, low, rfl⟩
    rw [slot_of_visited low]
    exact (flat.functions slot zero ((mem_visited low).mp member)).2
  · by_cases several : c.multifunction ⟨0, 0, 0⟩ = true
    · rw [visited_eq_nil ((flat.host several).2 bus started zero)] at member
      cases member
    · rw [scanned_single several, List.mem_singleton] at started
      exact absurd started zero

theorem visits : (scanned c).flatMap (visited c) = visited c 0 := by
  by_cases several : c.multifunction ⟨0, 0, 0⟩ = true
  · rcases flat.host several with ⟨absent, further⟩
    have start : scanned c = 0 :: untilPresent c [1, 2, 3, 4, 5, 6, 7] := by
      have missing : c.vendor (slotOf 0 0 0) = invalidVendor := not_not.mp absent
      rw [scanned_several several, untilPresent, List.takeWhile_cons_of_pos (by simpa using missing)]
      rfl
    have others : ∀ bus ∈ untilPresent c [1, 2, 3, 4, 5, 6, 7], visited c bus = [] := by
      intro bus member
      have nonzero : bus ≠ 0 := by
        rintro rfl
        exact absurd ((List.takeWhile_sublist _).subset member) (by decide)
      exact visited_eq_nil (further bus (by rw [start]; exact List.mem_cons_of_mem _ member) nonzero)
    rw [start, List.flatMap_cons, List.flatMap_eq_nil_iff.mpr others, List.append_nil]
  · rw [scanned_single several, List.flatMap_singleton]

end Flat

end Topology

/-- On a tree of bridges the search is right exactly for the flat topologies. -/
theorem enumerates_iff (latch : Latch) (s : State) (start : s.deviceList = []) (tree : BridgeTree s.config) :
    Enumerates latch s ↔ Flat s.config := by
  have none : s.found = [] := by rw [State.found, start, List.map_nil]
  constructor
  · rintro ⟨depth, s', taken, -, exact⟩
    have plain : ∀ bus ∈ scanned s.config, ∀ loc ∈ visited s.config bus, ¬ s.config.Bridge loc.slot := by
      intro bus started loc member isBridge
      rw [pciCheckAllBuses_stuck tree.primary ⟨bus, started, loc, member, isBridge⟩] at taken
      cases taken
    have adds := (pciCheckAllBuses_plain latch depth plain).outcome taken
    rw [Adds, none, List.nil_append] at adds
    have listed : ∀ slot, s.config.Reachable slot.bus → s.config.Function slot →
        slot.bus ∈ scanned s.config ∧ slot.function.toNat ≤ 3 := by
      intro slot reachable there
      have member := (exact slot.location).mpr ⟨slot, reachable, there, rfl⟩
      rw [adds] at member
      rcases List.mem_flatMap.mp member with ⟨bus, started, inside⟩
      rcases visited_slot inside with ⟨slot', rfl, low, same⟩
      rw [location_injective same] at started low
      exact ⟨started, low⟩
    have functions : ∀ slot, slot.bus = 0 → s.config.Function slot →
        slot.function.toNat ≤ 3 ∧ ¬ s.config.Bridge slot := by
      intro slot zero there
      rcases listed slot (by rw [zero]; exact .root) there with ⟨started, low⟩
      have bare := plain slot.bus started slot.location ((mem_visited low).mpr there)
      rw [slot_of_visited low] at bare
      exact ⟨low, bare⟩
    refine ⟨functions, fun several => ⟨fun present => ?_, fun bus started nonzero device present => nonzero ?_⟩⟩
    · -- a multifunction host bridge that is there ends the loop before any bus is scanned
      have started := (listed ⟨0, 0, 0⟩ .root ⟨present, .inl rfl⟩).1
      have there : s.config.vendor (slotOf 0 0 0) ≠ invalidVendor := present
      rw [scanned_several several, untilPresent, List.takeWhile_cons_of_neg (by simpa using there)] at started
      cases started
    · have member : (⟨bus, device, 0⟩ : Slot).location ∈ s'.found := by
        rw [adds]
        refine List.mem_flatMap.mpr ⟨bus, started, ?_⟩
        exact (@mem_visited _ ⟨bus, device, 0⟩ (show (0 : BitVec 3).toNat ≤ 3 by decide)).mpr ⟨present, .inl rfl⟩
      rcases (exact _).mp member with ⟨slot, reachable, -, same⟩
      rw [location_injective same] at reachable
      exact reachable_zero (fun slot zero there => (functions slot zero there).2) reachable
  · intro flat
    rcases pciCheckAllBuses_plain latch 0 flat.plain with ⟨_, s', taken, adds⟩
    rw [Adds, none, List.nil_append, flat.visits] at adds
    refine ⟨0, s', taken, by rw [adds]; exact visited_nodup _ _, fun loc => ?_⟩
    rw [adds]
    constructor
    · intro member
      rcases visited_slot member with ⟨slot, zero, low, rfl⟩
      rw [← zero] at member
      exact ⟨slot, by rw [zero]; exact .root, (mem_visited low).mp member, rfl⟩
    · rintro ⟨slot, reachable, there, rfl⟩
      have zero := reachable_zero (fun slot zero there => (flat.functions slot zero there).2) reachable
      rw [← zero]
      exact (mem_visited (flat.functions slot zero there).1).mpr there

/-- One function, at number 0 of device 0 on bus 0, with the given registers. -/
def lonely (registers : BitVec 6 → W32) : Config := fun slot register =>
  if slot = ⟨0, 0, 0⟩ then registers register else 0xffffffff

theorem lonely_present {registers : BitVec 6 → W32} {slot : Slot} (present : (lonely registers).Present slot) :
    slot = ⟨0, 0, 0⟩ := by
  by_contra other
  refine present ?_
  rw [Config.vendor, lonely, if_neg other]
  decide

def hostBridge : Config := lonely fun register => if register = 2 then 0x06000000 else 0

theorem enumerates_host_bridge : Enumerates (fun _ _ before _ => before) ⟨hostBridge, 0, []⟩ := by
  have bare : ¬ hostBridge.Bridge ⟨0, 0, 0⟩ := by decide
  have plain : ∀ slot, hostBridge.Present slot → ¬ hostBridge.Bridge slot := by
    intro slot present
    rw [lonely_present present]
    exact bare
  refine (enumerates_iff _ ⟨hostBridge, 0, []⟩ rfl ⟨?_, ?_, ?_⟩).mpr ⟨fun slot _ there => ?_, fun several => ?_⟩
  · exact fun slot present isBridge => absurd isBridge (plain slot present)
  · exact fun slot present isBridge => absurd isBridge (plain slot present)
  · exact fun slot _ present isBridge _ _ _ => absurd isBridge (plain slot present)
  · refine ⟨?_, plain slot there.1⟩
    rw [lonely_present there.1]
    decide
  · exact absurd several (by decide)

/-- A PCI-to-PCI bridge from bus 0 to bus 1, and nothing else. -/
def oneBridge : Config := lonely fun register => if register = 2 then 0x06040000 else if register = 6 then 0x100 else 0

/-- The scan of bus 0 calls itself at the bridge for ever. -/
theorem bridge_never_left : BridgeTree oneBridge ∧
    ∀ latch depth, pciCheckAllBuses latch depth ⟨oneBridge, 0, []⟩ = none := by
  have tree : BridgeTree oneBridge := by
    refine ⟨fun slot present _ => ?_, fun slot present _ => ?_, fun slot slot' present _ present' _ _ => ?_⟩
    · rw [lonely_present present]
      decide
    · rw [lonely_present present]
      decide
    · rw [lonely_present present, lonely_present present']
  refine ⟨tree, fun latch depth => pciCheckAllBuses_stuck tree.primary ⟨0, ?_, ⟨0, 0, 0⟩, ?_, ?_⟩⟩
  · decide
  · exact (@mem_visited oneBridge ⟨0, 0, 0⟩ (by decide)).mpr ⟨by decide, .inl rfl⟩
  · decide

end Neutrino.Pci
