import Neutrino.Device.Search

namespace Neutrino.Pci

open Library

/-- The register that holds `base_addr[i]`. -/
def barRegister (i : Nat) : BitVec 6 := BitVec.ofNat 6 (4 + i)

def State.write (s : State) (latch : Latch) (slot : Slot) (register : BitVec 6) (data : W32) : State :=
  { s with config := fun slot' register' =>
      if slot' = slot ∧ register' = register then latch slot' register' (s.config slot' register') data
      else s.config slot' register' }

/-- A BAR that `pci_get_bar_size` writes to. -/
def Header.sized (header : Header) (i : Nat) : Prop := header.bar i ≠ 0 ∧ barType (header.bar i) = .memorySpace

instance (header : Header) (i : Nat) : Decidable (header.sized i) := inferInstanceAs (Decidable (_ ∧ _))

/-- What is written back into every BAR. -/
def savedAddr (header : Header) : W32 := (getBarAddr header 0).setWidth 32

section Probe

variable {latch : Latch} {bus dev func : Byte} {header : Header} {s : State} {i : Nat}

theorem barRegister_inj {j : Nat} (inside : i < 6) (inside' : j < 6) (same : barRegister i = barRegister j) : i = j := by
  have numbers := congrArg BitVec.toNat same
  rw [barRegister, barRegister, BitVec.toNat_ofNat, BitVec.toNat_ofNat] at numbers
  omega

theorem barOffset_register (inside : i < 6) :
    (barListOffset + BitVec.ofNat 32 (i * 4)).extractLsb' 2 6 = barRegister i := by
  interval_cases i <;> decide

theorem pciWriteConfig_eq {offset : W32} (data : W32) : pciWriteConfig latch bus dev func offset data s =
    some ((), (s.select (configAddress bus dev func offset)).write latch (slotOf bus dev func)
      (offset.extractLsb' 2 6) data) := by
  have target := selected_configAddress bus dev func offset
  rw [pciWriteConfig, bind_eq (selectAddress_eq ..)]
  show some ((), _) = _
  simp only [State.select, target, State.write]

/-- The registers after `pci_get_bar_size` has been called for the BAR `i`. -/
def probed (latch : Latch) (slot : Slot) (header : Header) (i : Nat) (old : W32) : W32 :=
  if header.sized i then
    latch slot (barRegister i) (latch slot (barRegister i) old 0xffffffff) (savedAddr header)
  else old

def probedSize (latch : Latch) (slot : Slot) (header : Header) (i : Nat) (old : W32) : W32 :=
  if header.sized i then ~~~(latch slot (barRegister i) old 0xffffffff &&& 0xfffffff0) + 1 else 0

theorem pciGetBarSize_yields (inside : i < 6) :
    Yields s (pciGetBarSize latch bus dev func header i) fun size s' =>
      size = probedSize latch (slotOf bus dev func) header i (s.config (slotOf bus dev func) (barRegister i)) ∧
      s'.deviceList = s.deviceList ∧
      ∀ slot register, s'.config slot register =
        if slot = slotOf bus dev func ∧ register = barRegister i then
          probed latch (slotOf bus dev func) header i (s.config slot register)
        else s.config slot register := by
  rw [pciGetBarSize]
  by_cases zero : header.bar i = 0
  · have idle : ¬ header.sized i := fun sized => sized.1 zero
    rw [if_pos zero]
    refine .pure ⟨(if_neg idle).symm, rfl, ?_⟩
    intro slot register
    rw [probed, if_neg idle, ite_self]
  · rw [if_neg zero]
    by_cases memory : barType (header.bar i) = .memorySpace
    · have sized : header.sized i := ⟨zero, memory⟩
      rw [if_pos memory]
      refine .after (pciWriteConfig_eq _) (.after (selectAddress_eq ..) (.after (dataIn_eq _) ?_))
      refine .after (pciWriteConfig_eq _) (.pure ?_)
      have target := selected_configAddress bus dev func (barListOffset + BitVec.ofNat 32 (i * 4))
      rw [barOffset_register inside] at target ⊢
      refine ⟨?_, rfl, ?_⟩
      · rw [probedSize, if_pos sized]
        simp only [State.select, target, State.write, and_self, ↓reduceIte]
      · intro slot register
        simp only [State.select, State.write]
        by_cases here : slot = slotOf bus dev func ∧ register = barRegister i
        · rw [if_pos here, if_pos here, if_pos here, here.1, here.2, probed, if_pos sized]
          rfl
        · rw [if_neg here, if_neg here, if_neg here]
    · have idle : ¬ header.sized i := fun sized => memory sized.2
      rw [if_neg memory]
      refine .pure ⟨(if_neg idle).symm, rfl, ?_⟩
      intro slot register
      rw [probed, if_neg idle, ite_self]

end Probe

/-- What is stored of a BAR besides its size. -/
def BarInfo.place (info : BarInfo) : BarType × W64 := (info.type, info.base)

def barEntry (header : Header) (i : Nat) : BarType × W64 := (barType (header.bar i), getBarAddr header i)

/-- Each of the given BARs has been probed once, and no other register has changed. -/
structure Probed (latch : Latch) (slot : Slot) (header : Header) (bars : List Nat) (c c' : Config) : Prop where
  inside : ∀ i ∈ bars, c' slot (barRegister i) = probed latch slot header i (c slot (barRegister i))
  outside : ∀ slot' register, (slot' = slot → ∀ i ∈ bars, register ≠ barRegister i) → c' slot' register = c slot' register

section Bars

variable {latch : Latch} {loc : Location} {header : Header} {s : State}

theorem Probed.cons {slot : Slot} {c c' c'' : Config} {i : Nat} {bars : List Nat}
    (first : Probed latch slot header [i] c c') (rest : Probed latch slot header bars c' c'')
    (below : ∀ j ∈ i :: bars, j < 6) (fresh : i ∉ bars) : Probed latch slot header (i :: bars) c c'' := by
  have apart : ∀ j ∈ bars, barRegister i ≠ barRegister j := by
    intro j member same
    have inside := below j (List.mem_cons_of_mem i member)
    rw [barRegister_inj (below i List.mem_cons_self) inside same] at fresh
    exact fresh member
  constructor
  · intro j member
    rcases List.mem_cons.mp member with rfl | member
    · rw [rest.outside slot _ fun _ => apart]
      exact first.inside j List.mem_cons_self
    · rw [rest.inside j member, first.outside slot]
      intro _ k single
      rw [List.mem_singleton.mp single]
      exact (apart j member).symm
  · intro slot' register other
    rw [rest.outside slot' register fun here j member => other here j (List.mem_cons_of_mem i member)]
    apply first.outside
    intro here k single
    rw [List.mem_singleton.mp single]
    exact other here i List.mem_cons_self

theorem readBar_yields {i : Nat} (inside : i < 6) :
    Yields s (do
      let size ← pciGetBarSize latch loc.bus loc.device loc.function header i
      return (⟨barType (header.bar i), getBarAddr header i, size⟩ : BarInfo)) fun info s' =>
        info.place = barEntry header i ∧ s'.deviceList = s.deviceList ∧
        Probed latch loc.slot header [i] s.config s'.config := by
  apply (pciGetBarSize_yields inside).bind
  rintro size s' ⟨-, devices, config⟩
  refine .pure ⟨rfl, devices, ?_, ?_⟩
  · intro j single
    rw [List.mem_singleton.mp single, config]
    exact if_pos ⟨rfl, rfl⟩
  · intro slot register other
    rw [config]
    exact if_neg fun here => other here.1 i List.mem_cons_self here.2

theorem readLoop_yields {bars : List Nat} (below : ∀ i ∈ bars, i < 6) (distinct : bars.Nodup) :
    Yields s (bars.mapM fun i => do
      let size ← pciGetBarSize latch loc.bus loc.device loc.function header i
      return (⟨barType (header.bar i), getBarAddr header i, size⟩ : BarInfo)) fun infos s' =>
        infos.map BarInfo.place = bars.map (barEntry header) ∧ s'.deviceList = s.deviceList ∧
        Probed latch loc.slot header bars s.config s'.config := by
  induction bars generalizing s with
  | nil => exact .pure ⟨rfl, rfl, nofun, fun _ _ _ => rfl⟩
  | cons i bars ih =>
    obtain ⟨fresh, distinct⟩ := List.nodup_cons.mp distinct
    rw [List.mapM_cons]
    apply (readBar_yields (below i List.mem_cons_self)).bind
    rintro info s1 ⟨place, devices, probe⟩
    apply (ih (fun j member => below j (List.mem_cons_of_mem i member)) distinct).bind
    rintro infos s2 ⟨places, devices', probes⟩
    refine .pure ⟨?_, devices'.trans devices, probe.cons probes below fresh⟩
    rw [List.map_cons, List.map_cons, place, places]

theorem readBars_yields : Yields s (readBars latch loc header) fun infos s' =>
    infos.map BarInfo.place = (List.range (pciGetBarCount header)).map (barEntry header) ∧
    s'.deviceList = s.deviceList ∧
    Probed latch loc.slot header (List.range (pciGetBarCount header)) s.config s'.config := by
  apply readLoop_yields
  · intro i member
    exact Nat.lt_of_lt_of_le (List.mem_range.mp member) (pciGetBarCount_le header)
  · exact List.nodup_range

/-- The BARs that `pci_add_device` stores and probes. -/
def storedBars (header : Header) : List Nat :=
  if header.type.type = 0 ∨ header.type.type = 1 then List.range (pciGetBarCount header) else []

theorem pciAddDevice_yields : Yields s (pciAddDevice latch loc header) fun _ s' =>
    (∃ device, s'.deviceList = s.deviceList ++ [device] ∧
      device.bars.map BarInfo.place = (storedBars header).map (barEntry header)) ∧
    Probed latch loc.slot header (storedBars header) s.config s'.config := by
  rw [pciAddDevice, storedBars]
  split
  · apply readBars_yields.bind
    rintro infos s1 ⟨places, devices, probes⟩
    exact .of_eq rfl ⟨⟨_, congrArg (· ++ [_]) devices, places⟩, probes⟩
  · exact .of_eq rfl ⟨⟨_, rfl, rfl⟩, fun _ member => absurd member List.not_mem_nil, fun _ _ _ => rfl⟩

end Bars

/-! The decoding of BARs that PCI defines. -/

def isIo (value : W32) : Bool := value.getLsbD 0

/-- A memory BAR that takes up the next register as well. -/
def is64 (value : W32) : Bool := !isIo value && value.extractLsb' 1 2 == 2

def singleBar (value : W32) : BarType × W64 :=
  if isIo value then (.ioSpace, (value &&& ~~~3).setWidth 64) else (.memorySpace, (value &&& ~~~15).setWidth 64)

def doubleBar (low high : W32) : BarType × W64 :=
  (.memorySpace, (low &&& ~~~15).setWidth 64 + (high.setWidth 64 <<< 32))

/-- One entry for each BAR, up to the first register that implements none. -/
def decodeBars : List W32 → List (BarType × W64)
  | [] => []
  | [value] => if value = 0 then [] else [singleBar value]
  | value :: next :: rest =>
    if value = 0 then []
    else if is64 value then doubleBar value next :: decodeBars rest
    else singleBar value :: decodeBars (next :: rest)

/-- The registers hold BARs one after the other, with types that PCI defines, and zero after the last. -/
def WellFormed : List W32 → Prop
  | [] => True
  | [value] => value = 0 ∨ isIo value = true ∨ value.extractLsb' 1 2 = 0
  | value :: next :: rest =>
    if value = 0 then ∀ other ∈ next :: rest, other = 0
    else if is64 value then WellFormed rest
    else (isIo value = true ∨ value.extractLsb' 1 2 = 0) ∧ WellFormed (next :: rest)

def registers (header : Header) : List W32 := (List.range 6).map header.bar

section Decoding

variable {header : Header} {value next : W32} {rest : List W32} {i : Nat}

theorem barType_io (io : isIo value = true) : barType value = .ioSpace := if_pos io

theorem barType_memory (memory : isIo value = false) : barType value = .memorySpace := by
  rw [isIo] at memory
  rw [barType, memory]
  rfl

theorem memoryBarType_low (memory : isIo value = false) (type : value.extractLsb' 1 2 = 0 ∨ value.extractLsb' 1 2 = 2) :
    memoryBarType value = 0 := by
  have even : value.toNat % 2 = 0 := by
    simpa [isIo, BitVec.getLsbD, Nat.testBit_zero] using memory
  have middle : value.toNat / 2 % 4 = 0 ∨ value.toNat / 2 % 4 = 2 := by
    simpa [← BitVec.toNat_inj, Nat.shiftRight_eq_div_pow] using type
  apply BitVec.eq_of_toNat_eq
  rw [memoryBarType, BitVec.toNat_setWidth]
  show value.toNat % 2 ^ 2 = 0
  omega

theorem getBarAddr_low (memory : isIo (header.bar i) = false) (type : memoryBarType (header.bar i) = 0) :
    getBarAddr header i = (header.bar i &&& ~~~15).setWidth 64 := by
  simp only [getBarAddr, barType_memory memory, type, reduceCtorEq, ↓reduceIte]
  rfl

theorem barEntry_single (here : header.bar i = value) (proper : isIo value = true ∨ value.extractLsb' 1 2 = 0) :
    barEntry header i = singleBar value := by
  subst here
  rw [barEntry, singleBar]
  cases io : isIo (header.bar i) with
  | true =>
    rw [barType_io io, getBarAddr, barType_io io]
    rfl
  | false =>
    have type := proper.resolve_left (by rw [io]; decide)
    rw [barType_memory io, getBarAddr_low io (memoryBarType_low io (.inl type))]
    rfl

theorem is64_facts (wide : is64 value = true) : isIo value = false ∧ value.extractLsb' 1 2 = 2 := by
  simpa [is64] using wide

theorem barEntry_wide (wide : is64 (header.bar i) = true) :
    barEntry header i = (.memorySpace, (header.bar i &&& ~~~15).setWidth 64) := by
  obtain ⟨memory, type⟩ := is64_facts wide
  rw [barEntry, barType_memory memory, getBarAddr_low memory (memoryBarType_low memory (.inr type))]

theorem doubleBar_eq_iff (low high : W32) :
    (BarType.memorySpace, (low &&& ~~~15).setWidth 64) = doubleBar low high ↔ high = 0 := by
  rw [doubleBar, Prod.mk.injEq]
  constructor
  · rintro ⟨-, same⟩
    have zero : high.setWidth 64 <<< 32 = 0#64 := by
      generalize high.setWidth 64 <<< 32 = upper at same
      bv_omega
    have number := congrArg BitVec.toNat zero
    have bound := high.isLt
    rw [BitVec.toNat_shiftLeft, BitVec.toNat_setWidth, Nat.shiftLeft_eq] at number
    apply BitVec.eq_of_toNat_eq
    change _ = 0 at number ⊢
    omega
  · rintro rfl
    simp

theorem decodeBars_zero : decodeBars (0 :: rest) = [] := by
  cases rest <;> rfl

theorem decodeBars_single (present : value ≠ 0) (narrow : ¬ is64 value = true) :
    decodeBars (value :: rest) = singleBar value :: decodeBars rest := by
  cases rest with
  | nil => exact if_neg present
  | cons next rest => rw [decodeBars, if_neg present, if_neg narrow]

theorem wellFormed_single (present : value ≠ 0) (narrow : ¬ is64 value = true) :
    WellFormed (value :: rest) ↔ (isIo value = true ∨ value.extractLsb' 1 2 = 0) ∧ WellFormed rest := by
  cases rest with
  | nil => exact ⟨fun formed => ⟨formed.resolve_left present, trivial⟩, fun formed => .inr formed.1⟩
  | cons next rest => rw [WellFormed, if_neg present, if_neg narrow]

theorem wellFormed_zero : WellFormed (0 :: rest) ↔ ∀ other ∈ rest, other = 0 := by
  cases rest with
  | nil => exact ⟨fun _ => nofun, fun _ => .inl rfl⟩
  | cons next rest => rw [WellFormed, if_pos rfl]

theorem wellFormed_wide (wide : is64 value = true) (formed : WellFormed (value :: rest)) :
    value ≠ 0 ∧ ∃ high others, rest = high :: others ∧ WellFormed others := by
  have present : value ≠ 0 := by
    rintro rfl
    exact absurd wide (by decide)
  refine ⟨present, ?_⟩
  cases rest with
  | nil =>
    obtain ⟨memory, type⟩ := is64_facts wide
    rcases formed with zero | io | low
    · exact absurd zero present
    · exact absurd io (by rw [memory]; decide)
    · exact absurd (low.symm.trans type) (by decide)
  | cons high others =>
    rw [WellFormed, if_neg present, if_pos wide] at formed
    exact ⟨high, others, rfl, formed⟩

theorem decodeBars_nil_iff (formed : WellFormed rest) : decodeBars rest = [] ↔ ∀ other ∈ rest, other = 0 := by
  cases rest with
  | nil => exact ⟨fun _ => nofun, fun _ => rfl⟩
  | cons value rest =>
    by_cases zero : value = 0
    · subst zero
      refine ⟨fun _ other member => ?_, fun _ => decodeBars_zero⟩
      rcases List.mem_cons.mp member with rfl | member
      · rfl
      · exact wellFormed_zero.mp formed other member
    · refine ⟨fun none => ?_, fun all => absurd (all value List.mem_cons_self) zero⟩
      by_cases wide : is64 value = true
      · obtain ⟨-, high, others, rfl, -⟩ := wellFormed_wide wide formed
        rw [decodeBars, if_neg zero, if_pos wide] at none
        cases none
      · rw [decodeBars_single zero wide] at none
        cases none

theorem countBars_add (header : Header) (limit fuel i size : Nat) :
    countBars header limit fuel i size = countBars header limit fuel i 0 + size := by
  induction fuel generalizing i size with
  | zero => simp [countBars]
  | succ fuel ih =>
    rw [countBars, countBars]
    split
    · rw [ih _ (size + 1), ih _ (0 + 1)]
      omega
    · omega

theorem countBars_zero {fuel : Nat} (zero : header.bar i = 0) : countBars header 6 fuel i 0 = 0 := by
  cases fuel with
  | zero => rfl
  | succ fuel => exact if_neg fun more => more.2 zero

theorem countBars_next {fuel : Nat} (inside : i < 6) (present : header.bar i ≠ 0)
    (low : isIo (header.bar i) = true ∨ memoryBarType (header.bar i) = 0) :
    countBars header 6 (fuel + 1) i 0 = countBars header 6 fuel (i + 1) 0 + 1 := by
  have step : ¬ (barType (header.bar i) = .memorySpace ∧ memoryBarType (header.bar i) = 2) := by
    rintro ⟨memory, wide⟩
    rcases low with io | zero
    · rw [barType_io io] at memory
      cases memory
    · rw [zero] at wide
      exact absurd wide (by decide)
  rw [countBars, if_pos ⟨inside, present⟩, if_neg step, countBars_add]

theorem barEntries_iff {n i : Nat} (whole : i + n = 6) (formed : WellFormed ((List.range' i n).map header.bar)) :
    (List.range' i (countBars header 6 n i 0)).map (barEntry header) = decodeBars ((List.range' i n).map header.bar) ↔
      ((List.range' i n).map header.bar).Pairwise fun value other => is64 value = true → other = 0 := by
  induction n generalizing i with
  | zero => simp [countBars, decodeBars]
  | succ n ih =>
    rw [List.range'_succ, List.map_cons] at formed ⊢
    rw [List.pairwise_cons]
    by_cases zero : header.bar i = 0
    · rw [countBars_zero zero, zero, decodeBars_zero]
      rw [zero] at formed
      have all := wellFormed_zero.mp formed
      refine ⟨fun _ => ⟨fun _ _ wide => absurd wide (by decide), ?_⟩, fun _ => rfl⟩
      exact List.pairwise_of_forall_mem_list fun _ _ other member _ => all other member
    · by_cases wide : is64 (header.bar i) = true
      · -- the code stores the first register alone and goes on with the second
        obtain ⟨-, high, others, next, formed'⟩ := wellFormed_wide wide formed
        obtain ⟨memory, type⟩ := is64_facts wide
        have low := memoryBarType_low memory (.inr type)
        have second : header.bar (i + 1) = high := by
          cases n with
          | zero => cases next
          | succ n =>
            rw [List.range'_succ, List.map_cons] at next
            exact (List.cons.inj next).1
        rw [countBars_next (by omega) zero (.inr low), List.range'_succ, List.map_cons, barEntry_wide wide, next, decodeBars,
          if_neg zero, if_pos wide, List.cons.injEq, doubleBar_eq_iff]
        constructor
        · rintro ⟨rfl, same⟩
          rw [countBars_zero second] at same
          have all := (decodeBars_nil_iff formed').mp same.symm
          have every : ∀ other ∈ 0 :: others, other = 0 := by
            intro other member
            rcases List.mem_cons.mp member with rfl | member
            · rfl
            · exact all other member
          exact ⟨fun other member _ => every other member,
            List.pairwise_of_forall_mem_list fun _ _ other member _ => every other member⟩
        · rintro ⟨all, -⟩
          have last : high = 0 := all high List.mem_cons_self wide
          refine ⟨last, ?_⟩
          rw [last] at second
          rw [countBars_zero second]
          exact ((decodeBars_nil_iff formed').mpr fun other member => all other (List.mem_cons_of_mem high member) wide).symm
      · obtain ⟨proper, rest⟩ := (wellFormed_single zero wide).mp formed
        have low : isIo (header.bar i) = true ∨ memoryBarType (header.bar i) = 0 := by
          cases io : isIo (header.bar i) with
          | true => exact .inl rfl
          | false => exact .inr (memoryBarType_low io (.inl (proper.resolve_left (by rw [io]; decide))))
        rw [countBars_next (by omega) zero low, List.range'_succ, List.map_cons, barEntry_single rfl proper,
          decodeBars_single zero wide, List.cons.injEq, ih (by omega) rest]
        exact ⟨fun both => ⟨fun _ _ isWide => absurd isWide wide, both.2⟩, fun both => ⟨rfl, both.2⟩⟩

end Decoding

/-- The device that `pci_add_device` stores has the BARs of the reference decoding. -/
def Decodes (latch : Latch) (loc : Location) (header : Header) (s : State) : Prop :=
  Yields s (pciAddDevice latch loc header) fun _ s' => ∃ device, s'.deviceList = s.deviceList ++ [device] ∧
    device.bars.map BarInfo.place = decodeBars (registers header)

theorem decodes_iff_stored {latch : Latch} {loc : Location} {header : Header} {s : State} :
    Decodes latch loc header s ↔ (storedBars header).map (barEntry header) = decodeBars (registers header) := by
  constructor
  · intro decodes
    obtain ⟨_, s', -, ⟨⟨device, devices, places⟩, -⟩, device', devices', places'⟩ := pciAddDevice_yields.and decodes
    have same := List.append_cancel_left (devices.symm.trans devices')
    cases same
    exact places.symm.trans places'
  · intro same
    refine pciAddDevice_yields.mono ?_
    rintro _ s' ⟨⟨device, devices, places⟩, -⟩
    exact ⟨device, devices, places.trans same⟩

theorem bars_decoded_iff (latch : Latch) (loc : Location) (header : Header) (s : State) (general : header.type.type = 0)
    (formed : WellFormed (registers header)) : Decodes latch loc header s ↔
      (registers header).Pairwise fun value other => is64 value = true → other = 0 := by
  have stored : storedBars header = List.range' 0 (countBars header 6 6 0 0) := by
    rw [storedBars, if_pos (.inl general), pciGetBarCount, if_pos general, List.range_eq_range']
  have all : registers header = (List.range' 0 6).map header.bar := by rw [registers, List.range_eq_range']
  rw [decodes_iff_stored, stored]
  rw [all] at formed ⊢
  exact barEntries_iff rfl formed

def headerOf (bars : List W32) : Header :=
  List.replicate 8 (0 : W16) ++ bars.flatMap fun bar : W32 => [bar.setWidth 16, (bar >>> 16).setWidth 16]

theorem bars_decoded_io_memory :
    Decodes (fun _ _ before _ => before) ⟨0, 3, 0⟩ (headerOf [0xe001, 0xfebf0008]) ⟨fun _ _ => 0, 0, []⟩ := by
  have values : registers (headerOf [0xe001, 0xfebf0008]) = [0xe001, 0xfebf0008, 0, 0, 0, 0] := by decide
  have formed : WellFormed (registers (headerOf [0xe001, 0xfebf0008])) := by
    rw [values, wellFormed_single (by decide) (by decide), wellFormed_single (by decide) (by decide), wellFormed_zero]
    exact ⟨.inl (by decide), .inr (by decide), by simp⟩
  refine (bars_decoded_iff _ _ _ _ (by decide) formed).mpr ?_
  rw [values]
  decide

/-- A BAR of 64 bits at 0x1fe000000 is stored as one of 32 bits and a range of ports. -/
theorem wide_bar_split :
    ¬ Decodes (fun _ _ before _ => before) ⟨0, 3, 0⟩ (headerOf [0xfe000004, 1]) ⟨fun _ _ => 0, 0, []⟩ ∧
      (storedBars (headerOf [0xfe000004, 1])).map (barEntry (headerOf [0xfe000004, 1])) =
        [(.memorySpace, 0xfe000000), (.ioSpace, 0)] ∧
      decodeBars (registers (headerOf [0xfe000004, 1])) = [(.memorySpace, 0x1fe000000)] := by
  rw [decodes_iff_stored]
  decide

end Neutrino.Pci
