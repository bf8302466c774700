import Mathlib.Tactic.IntervalCases
import Neutrino.Device.Pci

namespace Neutrino.Pci

open Library

/-- The function that the address lines select, with two of the three bits of its number. -/
def slotOf (bus dev func : Byte) : Slot := ⟨bus, dev.setWidth 5, (func &&& 3).setWidth 3⟩

theorem selected_configAddress (bus dev func : Byte) (offset : W32) :
    selected (configAddress bus dev func offset) = (slotOf bus dev func, offset.extractLsb' 2 6) := by
  simp only [selected, slotOf, configAddress, addrEnable, addrBusID, addrDevID, addrFunID, Prod.mk.injEq, Slot.mk.injEq]
  refine ⟨⟨?_, ?_, ?_⟩, ?_⟩
  · apply BitVec.eq_of_getLsbD_eq
    intro i inside
    interval_cases i <;> simp
  · apply BitVec.eq_of_getLsbD_eq
    intro i inside
    interval_cases i <;> simp
  · apply BitVec.eq_of_getLsbD_eq
    intro i inside
    interval_cases i <;> simp
  · apply BitVec.eq_of_getLsbD_eq
    intro i inside
    interval_cases i <;> simp

/-- The fields of a function's registers, as the bus specification places them. -/
def Config.vendor (c : Config) (slot : Slot) : W16 := (c slot 0).extractLsb' 0 16
def Config.subclass (c : Config) (slot : Slot) : Byte := (c slot 2).extractLsb' 16 8
def Config.classCode (c : Config) (slot : Slot) : Byte := (c slot 2).extractLsb' 24 8
def Config.header (c : Config) (slot : Slot) : Byte := (c slot 3).extractLsb' 16 8
def Config.multifunction (c : Config) (slot : Slot) : Bool := (c.header slot).getLsbD 7
def Config.primaryBus (c : Config) (slot : Slot) : Byte := (c slot 6).extractLsb' 0 8
def Config.secondaryBus (c : Config) (slot : Slot) : Byte := (c slot 6).extractLsb' 8 8

def Config.Present (c : Config) (slot : Slot) : Prop := c.vendor slot ≠ invalidVendor

def Config.Bridge (c : Config) (slot : Slot) : Prop := c.classCode slot = 6 ∧ c.subclass slot = 4

instance (c : Config) (slot : Slot) : Decidable (c.Present slot) := inferInstanceAs (Decidable (_ ≠ _))

instance (c : Config) (slot : Slot) : Decidable (c.Bridge slot) := inferInstanceAs (Decidable (_ ∧ _))

def State.select (s : State) (address : W32) : State := { s with address }

@[simp]
theorem State.select_config (s : State) (address : W32) : (s.select address).config = s.config := rfl

@[simp]
theorem State.select_deviceList (s : State) (address : W32) : (s.select address).deviceList = s.deviceList := rfl

theorem selectAddress_eq (s : State) (address : W32) : selectAddress address s = some ((), s.select address) := rfl

theorem dataIn_eq (s : State) : dataIn s = some (s.config (selected s.address).1 (selected s.address).2, s) := rfl

section Reads

variable (bus dev func : Byte) (s : State)

theorem pciReadConfig_eq (offset : W32) : pciReadConfig bus dev func offset s =
    some (((s.config (slotOf bus dev func) (offset.extractLsb' 2 6) >>> ((offset &&& 2) * 8).toNat) &&& 0xffff).setWidth 16,
      s.select (configAddress bus dev func offset)) := by
  have selection := selected_configAddress bus dev func offset
  rw [pciReadConfig, bind_eq (selectAddress_eq ..), bind_eq (dataIn_eq _), State.select, selection]
  rfl

theorem pciGetVendor_eq : pciGetVendor bus dev func s = some (s.config.vendor (slotOf bus dev func),
    s.select (configAddress bus dev func vendorOffset)) := by
  rw [pciGetVendor, pciReadConfig_eq]
  congr 2
  apply BitVec.eq_of_getLsbD_eq
  intro i inside
  interval_cases i <;> simp [vendorOffset, Config.vendor]

theorem pciGetHeader_eq : pciGetHeader bus dev func s = some (headerType (s.config.header (slotOf bus dev func)),
    s.select (configAddress bus dev func headerTypeOffset)) := by
  rw [pciGetHeader, bind_eq (pciReadConfig_eq ..)]
  show some (_, _) = _
  congr 3
  apply BitVec.eq_of_getLsbD_eq
  intro i inside
  interval_cases i <;> simp [headerTypeOffset, Config.header]

theorem pciGetClass_eq : pciGetClass bus dev func s =
    some ((s.config.classCode (slotOf bus dev func)).setWidth 16, s.select (configAddress bus dev func classCodeOffset)) := by
  rw [pciGetClass, bind_eq (pciReadConfig_eq ..)]
  show some (_, _) = _
  congr 2
  apply BitVec.eq_of_getLsbD_eq
  intro i inside
  interval_cases i <;> simp [classCodeOffset, Config.classCode]

theorem pciGetSubclass_eq : pciGetSubclass bus dev func s =
    some ((s.config.subclass (slotOf bus dev func)).setWidth 16, s.select (configAddress bus dev func subclassOffset)) := by
  rw [pciGetSubclass, bind_eq (pciReadConfig_eq ..)]
  show some (_, _) = _
  congr 2
  apply BitVec.eq_of_getLsbD_eq
  intro i inside
  interval_cases i <;> simp [subclassOffset, Config.subclass]

theorem read_secondary_eq : ∃ word, pciReadConfig bus dev func secondaryBusNumOffset s =
    some (word, s.select (configAddress bus dev func secondaryBusNumOffset)) ∧
      word.setWidth 8 = s.config.primaryBus (slotOf bus dev func) := by
  refine ⟨_, pciReadConfig_eq .., ?_⟩
  apply BitVec.eq_of_getLsbD_eq
  intro i inside
  interval_cases i <;> simp [secondaryBusNumOffset, Config.primaryBus]

end Reads

section Recursion

variable (checkBus : Byte → PciM Unit) {bus dev func : Byte} {s : State}

theorem bridge_iff (c : Config) (slot : Slot) :
    ((c.classCode slot).setWidth 16 = bridge ∧ (c.subclass slot).setWidth 16 = pci2PciBridge) ↔ c.Bridge slot := by
  have widened : ∀ (x y : Byte), x.setWidth 16 = y.setWidth 16 ↔ x = y := by
    intro x y
    refine ⟨fun same => ?_, fun same => by rw [same]⟩
    have bits := congrArg BitVec.toNat same
    simp only [BitVec.toNat_setWidth] at bits
    have small := x.isLt
    have small' := y.isLt
    apply BitVec.eq_of_toNat_eq
    omega
  exact and_congr (widened _ 6) (widened _ 4)

theorem pciCheckFun_plain (plain : ¬ s.config.Bridge (slotOf bus dev func)) :
    ∃ address, pciCheckFun checkBus bus dev func s = some ((), s.select address) := by
  rw [pciCheckFun, bind_eq (pciGetClass_eq ..), bind_eq (pciGetSubclass_eq ..)]
  simp only [State.select_config, bridge_iff, plain, ↓reduceIte]
  exact ⟨_, rfl⟩

theorem pciCheckFun_bridge (isBridge : s.config.Bridge (slotOf bus dev func)) :
    ∃ address, pciCheckFun checkBus bus dev func s =
      checkBus (s.config.primaryBus (slotOf bus dev func)) (s.select address) := by
  rw [pciCheckFun, bind_eq (pciGetClass_eq ..), bind_eq (pciGetSubclass_eq ..)]
  simp only [State.select_config, bridge_iff, isBridge, ↓reduceIte]
  rcases read_secondary_eq bus dev func
    ((s.select (configAddress bus dev func classCodeOffset)).select (configAddress bus dev func subclassOffset)) with
    ⟨word, taken, low⟩
  rw [bind_eq taken, low]
  exact ⟨_, rfl⟩

end Recursion

/-- Sizing the BARs of a function changes its registers from 4 on, and no other function's. -/
def Probes (slot : Slot) (s s' : State) : Prop :=
  s'.deviceList = s.deviceList ∧
    ∀ slot' register, slot' ≠ slot ∨ register < 4#6 → s'.config slot' register = s.config slot' register

namespace Probes

variable {slot : Slot} {s s' s'' : State}

theorem select (address : W32) : Probes slot s (s.select address) := ⟨rfl, fun _ _ _ => rfl⟩

theorem trans (first : Probes slot s s') (second : Probes slot s' s'') : Probes slot s s'' :=
  ⟨second.1.trans first.1, fun other register kept => (second.2 other register kept).trans (first.2 other register kept)⟩

end Probes

section AddDevice

variable {latch : Latch} {bus dev func : Byte} {s : State} {header : Header}

theorem pciWriteConfig_probes {offset : W32} (data : W32) (above : 4#6 ≤ offset.extractLsb' 2 6) :
    Yields s (pciWriteConfig latch bus dev func offset data) fun _ s' => Probes (slotOf bus dev func) s s' := by
  refine ⟨(), _, rfl, rfl, fun slot register kept => ?_⟩
  have selection := selected_configAddress bus dev func offset
  simp only [selection]
  rw [if_neg]
  rintro ⟨rfl, rfl⟩
  rcases kept with other | low
  · exact other rfl
  · exact absurd above (BitVec.not_le.mpr low)

theorem bar_register {i : Nat} (inside : i < 6) :
    4#6 ≤ (barListOffset + BitVec.ofNat 32 (i * 4)).extractLsb' 2 6 := by
  interval_cases i <;> decide

theorem pciGetBarSize_probes {i : Nat} (inside : i < 6) :
    Yields s (pciGetBarSize latch bus dev func header i) fun _ s' => Probes (slotOf bus dev func) s s' := by
  rw [pciGetBarSize]
  split
  · exact ⟨0, s, rfl, .select s.address⟩
  split
  · refine (pciWriteConfig_probes _ (bar_register inside)).bind fun _ s₁ first => ?_
    refine .after (selectAddress_eq ..) (.after (dataIn_eq _) ?_)
    refine (pciWriteConfig_probes _ (bar_register inside)).bind fun _ s₂ second => ?_
    exact ⟨_, s₂, rfl, first.trans ((Probes.select _).trans second)⟩
  · exact ⟨0, s, rfl, .select s.address⟩

theorem countBars_le (header : Header) (limit fuel i size : Nat) :
    countBars header limit fuel i size ≤ size + fuel := by
  induction fuel generalizing i size with
  | zero => exact Nat.le_refl size
  | succ fuel ih =>
    rw [countBars]
    split
    · have rest := ih (i + if barType (header.bar i) = .memorySpace ∧ memoryBarType (header.bar i) = 2 then 2 else 1)
        (size + 1)
      omega
    · omega

theorem pciGetBarCount_le (header : Header) : pciGetBarCount header ≤ 6 := by
  rw [pciGetBarCount]
  have bound := fun limit => countBars_le header limit limit 0 0
  split
  · exact bound 6
  · exact Nat.le_trans (bound 2) (by decide)

def State.found (s : State) : List Location := s.deviceList.map (·.location)

theorem pciReadFullConfig_probes :
    Yields s (pciReadFullConfig bus dev func) fun _ s' => Probes (slotOf bus dev func) s s' := by
  refine .after (pciGetHeader_eq ..) ?_
  have words : ∀ (offsets : List Nat) (s : State), Yields s (offsets.mapM fun offset =>
      pciReadConfig bus dev func (BitVec.ofNat 32 (offset * 2))) fun _ s' => Probes (slotOf bus dev func) s s' := by
    intro offsets s
    refine .mapM (fun s => Probes.select s.address) (fun _ _ _ => Probes.trans) fun offset _ s => ?_
    exact ⟨_, _, pciReadConfig_eq .., .select _⟩
  exact (words _ _).mono fun _ _ probes => (Probes.select _).trans probes

theorem readBars_probes :
    Yields s (readBars latch ⟨bus, dev, func⟩ header) fun _ s' => Probes (slotOf bus dev func) s s' := by
  refine .mapM (fun s => Probes.select s.address) (fun _ _ _ => Probes.trans) fun i member s => ?_
  have inside := Nat.lt_of_lt_of_le (List.mem_range.mp member) (pciGetBarCount_le header)
  exact (pciGetBarSize_probes inside).bind fun size s' probes => .pure probes

theorem pciAddDevice_adds :
    Yields s (pciAddDevice latch ⟨bus, dev, func⟩ header) fun _ s' => s'.found = s.found ++ [⟨bus, dev, func⟩] ∧
      ∃ s₁, Probes (slotOf bus dev func) s s₁ ∧ s'.config = s₁.config := by
  have append : ∀ (device : Device) (s₁ : State), device.location = ⟨bus, dev, func⟩ →
      Probes (slotOf bus dev func) s s₁ →
      Yields s₁ (modify fun s => { s with deviceList := s.deviceList ++ [device] }) fun (_ : PUnit) s' =>
        s'.found = s.found ++ [⟨bus, dev, func⟩] ∧ ∃ s₁, Probes (slotOf bus dev func) s s₁ ∧ s'.config = s₁.config := by
    intro device s₁ location probes
    refine ⟨⟨⟩, _, rfl, ?_, s₁, probes, rfl⟩
    simp only [State.found, List.map_append, probes.1, List.map_cons, List.map_nil, location]
  rw [pciAddDevice]
  split
  · exact readBars_probes.bind fun infos s₁ probes => append _ s₁ rfl probes
  · exact append _ s rfl (.select s.address)

end AddDevice

/-- The registers that the search goes by are as they were. -/
def Settled (c c' : Config) : Prop :=
  ∀ slot register, register < 4#6 ∨ c.Bridge slot → c' slot register = c slot register

namespace Settled

variable {c : Config} {s s' : State} {slot : Slot} (settled : Settled c s.config)
include settled

theorem vendor : s.config.vendor slot = c.vendor slot := by
  rw [Config.vendor, Config.vendor, settled slot 0 (.inl (by decide))]

theorem header : s.config.header slot = c.header slot := by
  rw [Config.header, Config.header, settled slot 3 (.inl (by decide))]

theorem bridge_iff : s.config.Bridge slot ↔ c.Bridge slot := by
  simp only [Config.Bridge, Config.classCode, Config.subclass, settled slot 2 (.inl (by decide))]

theorem primaryBus (isBridge : c.Bridge slot) : s.config.primaryBus slot = c.primaryBus slot := by
  rw [Config.primaryBus, Config.primaryBus, settled slot 6 (.inr isBridge)]

theorem probes (plain : ¬ c.Bridge slot) (probes : Probes slot s s') : Settled c s'.config := by
  intro slot' register kept
  refine (probes.2 slot' register ?_).trans (settled slot' register kept)
  rcases kept with low | isBridge
  · exact .inr low
  · refine .inl ?_
    rintro rfl
    exact plain isBridge

end Settled

/-- The locations appended on the way. -/
def Adds (locations : List Location) (s s' : State) : Prop := s'.found = s.found ++ locations

theorem Adds.refl (s : State) : Adds [] s s := (List.append_nil _).symm

theorem Adds.trans (l l' : List Location) (s s' s'' : State) (first : Adds l s s') (second : Adds l' s' s'') :
    Adds (l ++ l') s s'' := by
  unfold Adds at first second ⊢
  rw [second, first, List.append_assoc]

section Search

variable {latch : Latch} {checkBus : Byte → PciM Unit} {c : Config} {bus dev func : Byte} {s : State}

theorem enterFun_plain (settled : Settled c s.config) (plain : ¬ c.Bridge (slotOf bus dev func)) :
    Yields s (enterFun latch checkBus bus dev func) fun _ s' =>
      Settled c s'.config ∧ Adds [⟨bus, dev, func⟩] s s' := by
  have here : ¬ s.config.Bridge (slotOf bus dev func) := fun isBridge => plain (settled.bridge_iff.mp isBridge)
  rcases pciCheckFun_plain checkBus here with ⟨address, checked⟩
  refine .after checked (pciReadFullConfig_probes.bind fun header s₁ read => ?_)
  refine pciAddDevice_adds.mono ?_
  rintro - s' ⟨found, s₂, added, same⟩
  have probes := ((Probes.select address).trans read).trans added
  refine ⟨?_, ?_⟩
  · rw [same]
    exact settled.probes plain probes
  · show s'.found = s.found ++ _
    rw [found, State.found, read.1]
    rfl

theorem enterFun_bridge (settled : Settled c s.config) (isBridge : c.Bridge (slotOf bus dev func))
    (stuck : ∀ s, Settled c s.config → checkBus (c.primaryBus (slotOf bus dev func)) s = none) :
    enterFun latch checkBus bus dev func s = none := by
  rcases pciCheckFun_bridge checkBus (settled.bridge_iff.mpr isBridge) with ⟨address, checked⟩
  refine bind_none (checked.trans ?_)
  rw [settled.primaryBus isBridge]
  exact stuck _ settled

end Search

/-- The functions of a device that are looked at, in order. -/
def visitedDev (c : Config) (bus dev : Byte) : List Location :=
  if c.vendor (slotOf bus dev 0) = invalidVendor then []
  else ⟨bus, dev, 0⟩ :: if c.multifunction (slotOf bus dev 0) then
    [1, 2, 3].flatMap fun func => if c.vendor (slotOf bus dev func) = invalidVendor then [] else [⟨bus, dev, func⟩]
  else []

def visited (c : Config) (bus : Byte) : List Location := devices.flatMap (visitedDev c bus)

def Location.slot (loc : Location) : Slot := slotOf loc.bus loc.device loc.function

section Devices

variable {latch : Latch} {checkBus : Byte → PciM Unit} {c : Config} {bus dev : Byte} {s : State}

theorem otherFun_plain {func : Byte} (settled : Settled c s.config)
    (plain : c.vendor (slotOf bus dev func) ≠ invalidVendor → ¬ c.Bridge (slotOf bus dev func)) :
    Yields s (do if (← pciGetVendor bus dev func) ≠ invalidVendor then enterFun latch checkBus bus dev func)
      fun _ s' => Settled c s'.config ∧
        Adds (if c.vendor (slotOf bus dev func) = invalidVendor then [] else [⟨bus, dev, func⟩]) s s' := by
  refine .after (pciGetVendor_eq ..) ?_
  rw [settled.vendor]
  by_cases absent : c.vendor (slotOf bus dev func) = invalidVendor
  · simp only [absent, ne_eq, not_true_eq_false, ↓reduceIte]
    exact .pure ⟨settled, Adds.refl s⟩
  · simp only [absent, ne_eq, not_false_eq_true, ↓reduceIte]
    exact enterFun_plain (s := s.select _) settled (plain absent)

theorem pciCheckDev_plain (settled : Settled c s.config)
    (plain : ∀ loc ∈ visitedDev c bus dev, ¬ c.Bridge loc.slot) :
    Yields s (pciCheckDev latch checkBus bus dev) fun _ s' =>
      Settled c s'.config ∧ Adds (visitedDev c bus dev) s s' := by
  rw [visitedDev] at plain ⊢
  refine .after (pciGetVendor_eq ..) ?_
  rw [settled.vendor]
  by_cases absent : c.vendor (slotOf bus dev 0) = invalidVendor
  · simp only [absent, ↓reduceIte]
    exact .pure ⟨settled, Adds.refl s⟩
  · simp only [absent, ↓reduceIte, List.mem_cons, forall_eq_or_imp] at plain ⊢
    have entered : Yields (s.select (configAddress bus dev 0 vendorOffset)) (enterFun latch checkBus bus dev 0)
        fun _ s' => Settled c s'.config ∧ Adds [⟨bus, dev, 0⟩] s s' := enterFun_plain settled plain.1
    refine entered.bind ?_
    rintro - s₁ ⟨settled₁, first⟩
    refine .after (pciGetHeader_eq ..) ?_
    rw [settled₁.header]
    by_cases several : c.multifunction (slotOf bus dev 0) = true
    · have more : (headerType (c.header (slotOf bus dev 0))).multifunction = true := several
      rw [if_pos several] at plain ⊢
      rw [if_pos more]
      have each : ∀ func ∈ [1, 2, 3], ∀ s : State, Settled c s.config → Yields s
          (do if (← pciGetVendor bus dev func) ≠ invalidVendor then enterFun latch checkBus bus dev func)
          fun _ s' => Settled c s'.config ∧
            Adds (if c.vendor (slotOf bus dev func) = invalidVendor then [] else [⟨bus, dev, func⟩]) s s' := by
        intro func member s settled
        refine otherFun_plain settled fun present => plain.2 ⟨bus, dev, func⟩ (List.mem_flatMap.mpr ⟨func, member, ?_⟩)
        rw [if_neg present]
        exact List.mem_cons_self
      refine (Yields.forM Adds.refl Adds.trans each settled₁).mono ?_
      rintro - s₂ ⟨settled₂, rest⟩
      exact ⟨settled₂, Adds.trans _ _ _ _ _ first rest⟩
    · have single : (headerType (c.header (slotOf bus dev 0))).multifunction = false :=
        Bool.eq_false_iff.mpr several
      rw [if_neg several]
      simp only [single, Bool.false_eq_true, ↓reduceIte]
      exact .pure ⟨settled₁, first⟩

theorem pciCheckDev_stuck (settled : Settled c s.config) (stuck : ∀ s, Settled c s.config → checkBus bus s = none)
    (own : ∀ slot, c.Present slot → c.Bridge slot → c.primaryBus slot = slot.bus)
    (bridges : ∃ loc ∈ visitedDev c bus dev, c.Bridge loc.slot) : pciCheckDev latch checkBus bus dev s = none := by
  have back : ∀ {func} {s : State}, c.Present (slotOf bus dev func) → c.Bridge (slotOf bus dev func) →
      Settled c s.config → enterFun latch checkBus bus dev func s = none := by
    intro func s present isBridge settled
    refine enterFun_bridge settled isBridge ?_
    rw [own _ present isBridge]
    exact stuck
  rcases bridges with ⟨loc, member, isBridge⟩
  rw [visitedDev] at member
  rw [pciCheckDev, bind_eq (pciGetVendor_eq ..), settled.vendor]
  by_cases absent : c.vendor (slotOf bus dev 0) = invalidVendor
  · rw [if_pos absent] at member
    cases member
  rw [if_neg absent, List.mem_cons] at member
  rw [if_neg absent]
  by_cases first : c.Bridge (slotOf bus dev 0)
  · exact bind_none (back absent first settled)
  have entered : Yields (s.select (configAddress bus dev 0 vendorOffset)) (enterFun latch checkBus bus dev 0)
      fun _ s' => Settled c s'.config ∧ Adds [⟨bus, dev, 0⟩] s s' := enterFun_plain settled first
  refine (Ensures.of_yields entered).bind_none ?_
  rintro - s₁ ⟨settled₁, -⟩
  rcases member with rfl | member
  · exact absurd isBridge first
  split at member
  · rename_i several
    rcases List.mem_flatMap.mp member with ⟨func, among, inside⟩
    split at inside
    · cases inside
    rename_i present
    rw [List.mem_singleton] at inside
    subst inside
    have more : (headerType (s₁.config.header (slotOf bus dev 0))).multifunction = true := by
      rw [settled₁.header]
      exact several
    rw [bind_eq (pciGetHeader_eq ..), if_pos more]
    have keep : ∀ func ∈ [1, 2, 3], ∀ s : State, Settled c s.config → Ensures s
        (do if (← pciGetVendor bus dev func) ≠ invalidVendor then enterFun latch checkBus bus dev func)
        fun _ s' => Settled c s'.config := by
      intro func _ s settled
      by_cases plain : c.vendor (slotOf bus dev func) ≠ invalidVendor → ¬ c.Bridge (slotOf bus dev func)
      · exact (Ensures.of_yields (otherFun_plain settled plain)).mono fun _ _ holds => holds.1
      · rw [Classical.not_imp, not_not] at plain
        refine .of_none ?_
        rw [bind_eq (pciGetVendor_eq ..), settled.vendor, if_pos plain.1]
        exact back plain.1 plain.2 settled
    refine Ensures.forM_none keep ⟨func, among, fun s settled => ?_⟩ settled₁
    rw [bind_eq (pciGetVendor_eq ..), settled.vendor, if_pos present]
    exact back present isBridge settled
  · cases member

theorem pciCheckDev_keeps (settled : Settled c s.config) (stuck : ∀ s, Settled c s.config → checkBus bus s = none)
    (own : ∀ slot, c.Present slot → c.Bridge slot → c.primaryBus slot = slot.bus) :
    Ensures s (pciCheckDev latch checkBus bus dev) fun _ s' => Settled c s'.config := by
  by_cases bridges : ∃ loc ∈ visitedDev c bus dev, c.Bridge loc.slot
  · exact .of_none (pciCheckDev_stuck settled stuck own bridges)
  · have plain : ∀ loc ∈ visitedDev c bus dev, ¬ c.Bridge loc.slot := fun loc member isBridge =>
      bridges ⟨loc, member, isBridge⟩
    exact (Ensures.of_yields (pciCheckDev_plain settled plain)).mono fun _ _ holds => holds.1

theorem pciCheckBus_plain {depth : Nat} (settled : Settled c s.config)
    (plain : ∀ loc ∈ visited c bus, ¬ c.Bridge loc.slot) :
    Yields s (pciCheckBus latch (depth + 1) bus) fun _ s' => Settled c s'.config ∧ Adds (visited c bus) s s' := by
  have each : ∀ dev ∈ devices, ∀ s : State, Settled c s.config →
      Yields s (pciCheckDev latch (pciCheckBus latch depth) bus dev) fun _ s' =>
        Settled c s'.config ∧ Adds (visitedDev c bus dev) s s' := by
    intro dev member s settled
    exact pciCheckDev_plain settled fun loc inside => plain loc (List.mem_flatMap.mpr ⟨dev, member, inside⟩)
  exact Yields.forM Adds.refl Adds.trans each settled

theorem pciCheckBus_stuck {depth : Nat} (settled : Settled c s.config)
    (own : ∀ slot, c.Present slot → c.Bridge slot → c.primaryBus slot = slot.bus)
    (bridges : ∃ loc ∈ visited c bus, c.Bridge loc.slot) : pciCheckBus latch depth bus s = none := by
  induction depth generalizing s with
  | zero => rfl
  | succ depth ih =>
    rcases bridges with ⟨loc, member, isBridge⟩
    rcases List.mem_flatMap.mp member with ⟨dev, among, inside⟩
    have stuck : ∀ s : State, Settled c s.config → pciCheckBus latch depth bus s = none := fun s settled => ih settled
    refine Ensures.forM_none (fun dev _ s settled => pciCheckDev_keeps settled stuck own) ⟨dev, among, fun s settled => ?_⟩ settled
    exact pciCheckDev_stuck settled stuck own ⟨loc, inside, isBridge⟩

end Devices

/-- The buses that the loop of `pci_check_all_buses` gets to. -/
def untilPresent (c : Config) (funs : List Byte) : List Byte :=
  funs.takeWhile fun func => c.vendor (slotOf 0 0 func) = invalidVendor

/-- The buses that `pci_check_all_buses` starts from. -/
def scanned (c : Config) : List Byte :=
  if c.multifunction (slotOf 0 0 0) then untilPresent c [0, 1, 2, 3, 4, 5, 6, 7] else [0]

theorem scanned_several {c : Config} (several : c.multifunction ⟨0, 0, 0⟩ = true) :
    scanned c = untilPresent c [0, 1, 2, 3, 4, 5, 6, 7] := if_pos several

theorem scanned_single {c : Config} (single : ¬ c.multifunction ⟨0, 0, 0⟩ = true) : scanned c = [0] := if_neg single

section Buses

variable {latch : Latch} {c : Config} {s : State} {depth : Nat}

theorem checkBuses_plain {funs : List Byte} (settled : Settled c s.config)
    (plain : ∀ bus ∈ untilPresent c funs, ∀ loc ∈ visited c bus, ¬ c.Bridge loc.slot) :
    Yields s (checkBuses latch (depth + 1) funs) fun _ s' => Adds ((untilPresent c funs).flatMap (visited c)) s s' := by
  induction funs generalizing s with
  | nil => exact .pure (Adds.refl s)
  | cons func funs ih =>
    rw [untilPresent, List.takeWhile_cons] at plain ⊢
    refine .after (pciGetVendor_eq ..) ?_
    rw [settled.vendor]
    by_cases absent : c.vendor (slotOf 0 0 func) = invalidVendor
    · simp only [absent, ne_eq, not_true_eq_false, ↓reduceIte, decide_true, List.forall_mem_cons] at plain ⊢
      have checked : Yields (s.select (configAddress 0 0 func vendorOffset)) (pciCheckBus latch (depth + 1) func)
          fun _ s' => Settled c s'.config ∧ Adds (visited c func) s s' := pciCheckBus_plain settled plain.1
      refine checked.bind ?_
      rintro - s₁ ⟨settled₁, first⟩
      refine (ih settled₁ plain.2).mono fun _ s₂ rest => ?_
      exact Adds.trans _ _ _ _ _ first rest
    · simp only [absent, ne_eq, not_false_eq_true, ↓reduceIte, decide_false, Bool.false_eq_true]
      exact .pure (Adds.refl s)

theorem checkBuses_stuck {funs : List Byte} (settled : Settled c s.config)
    (own : ∀ slot, c.Present slot → c.Bridge slot → c.primaryBus slot = slot.bus)
    (bridges : ∃ bus ∈ untilPresent c funs, ∃ loc ∈ visited c bus, c.Bridge loc.slot) :
    checkBuses latch depth funs s = none := by
  induction funs generalizing s with
  | nil =>
    rcases bridges with ⟨bus, member, -⟩
    cases member
  | cons func funs ih =>
    rcases bridges with ⟨bus, member, bridges⟩
    rw [untilPresent, List.takeWhile_cons] at member
    split at member
    · rename_i absent
      rw [decide_eq_true_iff] at absent
      rw [checkBuses, bind_eq (pciGetVendor_eq ..), settled.vendor]
      simp only [absent, ne_eq, not_true_eq_false, ↓reduceIte]
      by_cases here : ∃ loc ∈ visited c func, c.Bridge loc.slot
      · exact bind_none (pciCheckBus_stuck (s := s.select _) settled own here)
      · rcases List.mem_cons.mp member with rfl | member
        · exact absurd bridges here
        cases depth with
        | zero => rfl
        | succ depth =>
          have plain : ∀ loc ∈ visited c func, ¬ c.Bridge loc.slot := fun loc inside isBridge =>
            here ⟨loc, inside, isBridge⟩
          have checked : Yields (s.select (configAddress 0 0 func vendorOffset)) (pciCheckBus latch (depth + 1) func)
              fun _ s' => Settled c s'.config ∧ Adds (visited c func) s s' := pciCheckBus_plain settled plain
          refine (Ensures.of_yields checked).bind_none ?_
          rintro - s₁ ⟨settled₁, -⟩
          exact ih settled₁ ⟨bus, member, bridges⟩
    · cases member

theorem pciCheckAllBuses_plain (latch : Latch) (depth : Nat)
    (plain : ∀ bus ∈ scanned s.config, ∀ loc ∈ visited s.config bus, ¬ s.config.Bridge loc.slot) :
    Yields s (pciCheckAllBuses latch depth) fun _ s' =>
      Adds ((scanned s.config).flatMap (visited s.config)) s s' := by
  have settled : Settled s.config s.config := fun _ _ _ => rfl
  rw [scanned] at plain ⊢
  refine .after (pciGetHeader_eq ..) ?_
  by_cases several : s.config.multifunction (slotOf 0 0 0) = true
  · have more : (headerType (s.config.header (slotOf 0 0 0))).multifunction = true := several
    simp only [several, more, Bool.not_true, Bool.false_eq_true, ↓reduceIte] at plain ⊢
    exact checkBuses_plain (s := s.select _) settled plain
  · have single : (headerType (s.config.header (slotOf 0 0 0))).multifunction = false := Bool.eq_false_iff.mpr several
    simp only [several, single, Bool.not_false, Bool.false_eq_true, ↓reduceIte] at plain ⊢
    rw [List.flatMap_singleton]
    exact (pciCheckBus_plain (s := s.select _) settled (plain 0 List.mem_cons_self)).mono fun _ _ holds => holds.2

theorem pciCheckAllBuses_stuck (own : ∀ slot, s.config.Present slot → s.config.Bridge slot → s.config.primaryBus slot = slot.bus)
    (bridges : ∃ bus ∈ scanned s.config, ∃ loc ∈ visited s.config bus, s.config.Bridge loc.slot) :
    pciCheckAllBuses latch depth s = none := by
  have settled : Settled s.config s.config := fun _ _ _ => rfl
  rw [scanned] at bridges
  rw [pciCheckAllBuses, bind_eq (pciGetHeader_eq ..)]
  by_cases several : s.config.multifunction (slotOf 0 0 0) = true
  · have more : (headerType (s.config.header (slotOf 0 0 0))).multifunction = true := several
    simp only [several, more, Bool.not_true, Bool.false_eq_true, ↓reduceIte] at bridges ⊢
    exact checkBuses_stuck (s := s.select _) settled own bridges
  · have single : (headerType (s.config.header (slotOf 0 0 0))).multifunction = false := Bool.eq_false_iff.mpr several
    simp only [several, single, Bool.not_false, Bool.false_eq_true, ↓reduceIte] at bridges ⊢
    rcases bridges with ⟨bus, member, bridges⟩
    rw [List.mem_singleton] at member
    subst member
    exact pciCheckBus_stuck (s := s.select _) settled own bridges

end Buses

end Neutrino.Pci
