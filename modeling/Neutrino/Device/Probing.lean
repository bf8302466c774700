import Neutrino.Device.Bars

namespace Neutrino.Pci

open Library

/-- The device takes over the bits of the BAR that are in its mask and keeps the others. -/
def KeepsReadOnly (latch : Latch) (slot : Slot) (mask : Nat → W32) (i : Nat) : Prop :=
  ∀ old data, latch slot (barRegister i) old data = (data &&& mask i) ||| (old &&& ~~~mask i)

/-- The bits of an address that a memory BAR of size `2 ^ k` decodes. -/
def sizeMask (k : Nat) : W32 := ~~~(BitVec.ofNat 32 (2 ^ k - 1))

/-- A memory BAR of size `2 ^ k`: below the address only the four low bits can be set. -/
structure MemoryBar (mask value : W32) (k : Nat) : Prop where
  low : 4 ≤ k
  high : k ≤ 31
  memory : isIo value = false
  decoded : mask = sizeMask k
  hardwired : value &&& ~~~mask &&& 0xfffffff0 = 0

/-- The probe of the BAR `i` leaves every register as it was and returns the size of a memory BAR. -/
def ProbesSafely (latch : Latch) (mask : Nat → W32) (bus dev func : Byte) (header : Header) (s : State) (i : Nat) : Prop :=
  Yields s (pciGetBarSize latch bus dev func header i) fun size s' =>
    s'.config = s.config ∧ ∀ k, MemoryBar (mask i) (header.bar i) k → size = BitVec.ofNat 32 (2 ^ k)

/-- What is written back has the address of the BAR. -/
def Restores (header : Header) (mask : Nat → W32) (i : Nat) : Prop :=
  header.sized i → savedAddr header &&& mask i = header.bar i &&& mask i

/-- And no memory BAR holds zero. -/
def ProbeFits (header : Header) (mask : Nat → W32) (i : Nat) : Prop :=
  Restores header mask i ∧ (header.bar i = 0 → ∀ k, 4 ≤ k → k ≤ 31 → mask i ≠ sizeMask k)

section Bits

theorem ones_and (mask : W32) : 0xffffffff &&& mask = mask := by
  have ones : (0xffffffff : W32) = BitVec.allOnes 32 := rfl
  rw [ones, BitVec.allOnes_and]

theorem masked_twice (mask old saved : W32) :
    (saved &&& mask) ||| (((0xffffffff &&& mask) ||| (old &&& ~~~mask)) &&& ~~~mask) =
      (saved &&& mask) ||| (old &&& ~~~mask) := by
  rw [ones_and]
  apply BitVec.eq_of_getLsbD_eq
  intro j inside
  simp only [BitVec.getLsbD_or, BitVec.getLsbD_and, BitVec.getLsbD_not, inside, decide_true, Bool.true_and]
  cases mask.getLsbD j <;> simp

theorem masked_eq_iff (mask old saved : W32) :
    (saved &&& mask) ||| (old &&& ~~~mask) = old ↔ saved &&& mask = old &&& mask := by
  constructor
  · intro same
    apply BitVec.eq_of_getLsbD_eq
    intro j inside
    have bit := congrArg (fun word : W32 => word.getLsbD j) same
    simp only [BitVec.getLsbD_or, BitVec.getLsbD_and, BitVec.getLsbD_not, inside, decide_true, Bool.true_and] at bit ⊢
    revert bit
    cases mask.getLsbD j <;> simp
  · intro same
    rw [same]
    apply BitVec.eq_of_getLsbD_eq
    intro j inside
    simp only [BitVec.getLsbD_or, BitVec.getLsbD_and, BitVec.getLsbD_not, inside, decide_true, Bool.true_and]
    cases mask.getLsbD j <;> simp

theorem sizeMask_aligned {k : Nat} (low : 4 ≤ k) (high : k ≤ 31) : sizeMask k &&& 0xfffffff0 = sizeMask k := by
  interval_cases k <;> decide

theorem sizeMask_size (k : Nat) : ~~~sizeMask k + 1 = BitVec.ofNat 32 (2 ^ k) := by
  have positive := Nat.two_pow_pos k
  rw [sizeMask, BitVec.not_not]
  change BitVec.ofNat 32 (2 ^ k - 1) + BitVec.ofNat 32 1 = _
  rw [← BitVec.ofNat_add, Nat.sub_add_cancel positive]

theorem MemoryBar.size {mask value : W32} {k : Nat} (bar : MemoryBar mask value k) :
    ~~~(((0xffffffff &&& mask) ||| (value &&& ~~~mask)) &&& 0xfffffff0) + 1 = BitVec.ofNat 32 (2 ^ k) := by
  obtain ⟨low, high, -, rfl, hardwired⟩ := bar
  rw [ones_and, BitVec.and_or_distrib_right, hardwired, sizeMask_aligned low high]
  change ~~~(sizeMask k ||| 0#32) + 1 = _
  rw [BitVec.or_zero, sizeMask_size]

end Bits

section Probe

variable {latch : Latch} {mask : Nat → W32} {bus dev func : Byte} {header : Header} {s : State} {i : Nat}

theorem probed_eq (keeps : KeepsReadOnly latch (slotOf bus dev func) mask i) (old : W32) :
    probed latch (slotOf bus dev func) header i old =
      if header.sized i then (savedAddr header &&& mask i) ||| (old &&& ~~~mask i) else old := by
  rw [probed, keeps, keeps, masked_twice]

theorem probed_eq_iff (keeps : KeepsReadOnly latch (slotOf bus dev func) mask i) :
    probed latch (slotOf bus dev func) header i (header.bar i) = header.bar i ↔ Restores header mask i := by
  rw [probed_eq keeps, Restores]
  split
  · rename_i sized
    rw [masked_eq_iff]
    exact ⟨fun same _ => same, fun same => same sized⟩
  · rename_i idle
    exact ⟨fun _ sized => absurd sized idle, fun _ => rfl⟩

theorem sized_of_memory (present : header.bar i ≠ 0) (memory : isIo (header.bar i) = false) : header.sized i :=
  ⟨present, barType_memory memory⟩

theorem probedSize_iff (keeps : KeepsReadOnly latch (slotOf bus dev func) mask i) :
    (∀ k, MemoryBar (mask i) (header.bar i) k →
      probedSize latch (slotOf bus dev func) header i (header.bar i) = BitVec.ofNat 32 (2 ^ k)) ↔
    (header.bar i = 0 → ∀ k, 4 ≤ k → k ≤ 31 → mask i ≠ sizeMask k) := by
  constructor
  · intro right zero k low high decoded
    have bar : MemoryBar (mask i) (header.bar i) k := by
      refine ⟨low, high, ?_, decoded, ?_⟩
      · rw [zero]
        rfl
      · rw [zero]
        change 0#32 &&& _ &&& _ = 0#32
        rw [BitVec.zero_and, BitVec.zero_and]
    have size := right k bar
    rw [probedSize, if_neg fun sized => sized.1 zero] at size
    have number := congrArg BitVec.toNat size
    have positive := Nat.two_pow_pos k
    have bound : 2 ^ k < 2 ^ 32 := Nat.pow_lt_pow_right (by decide) (by omega)
    rw [BitVec.toNat_ofNat, Nat.mod_eq_of_lt bound] at number
    change 0 = _ at number
    omega
  · intro nonzero k bar
    have present : header.bar i ≠ 0 := fun zero => nonzero zero k bar.low bar.high bar.decoded
    rw [probedSize, if_pos (sized_of_memory present bar.memory), keeps]
    exact bar.size

theorem probesSafely_iff (keeps : KeepsReadOnly latch (slotOf bus dev func) mask i)
    (read : ∀ i < 6, header.bar i = s.config (slotOf bus dev func) (barRegister i)) (inside : i < 6) :
    ProbesSafely latch mask bus dev func header s i ↔ ProbeFits header mask i := by
  have probe := @pciGetBarSize_yields latch bus dev func header s i inside
  rw [← read i inside] at probe
  rw [ProbeFits, ← probed_eq_iff keeps, ← probedSize_iff keeps]
  constructor
  · intro safe
    obtain ⟨size, s', -, ⟨sizeEq, -, config⟩, same, right⟩ := probe.and safe
    refine ⟨?_, ?_⟩
    · have register := config (slotOf bus dev func) (barRegister i)
      rw [same, if_pos ⟨rfl, rfl⟩, ← read i inside] at register
      exact register.symm
    · rw [← sizeEq]
      exact right
  · rintro ⟨same, right⟩
    refine probe.mono ?_
    rintro size s' ⟨sizeEq, -, config⟩
    refine ⟨?_, ?_⟩
    · funext slot register
      rw [config]
      split
      · rename_i here
        rw [here.1, here.2, ← read i inside, same]
      · rfl
    · rw [sizeEq]
      exact right

theorem pciAddDevice_unchanged_iff
    (keeps : ∀ i ∈ storedBars header, KeepsReadOnly latch (slotOf bus dev func) mask i)
    (read : ∀ i < 6, header.bar i = s.config (slotOf bus dev func) (barRegister i)) :
    (Yields s (pciAddDevice latch ⟨bus, dev, func⟩ header) fun _ s' => s'.config = s.config) ↔
      ∀ i ∈ storedBars header, Restores header mask i := by
  have adds : Yields s (pciAddDevice latch ⟨bus, dev, func⟩ header) fun _ s' => _ ∧
      Probed latch (slotOf bus dev func) header (storedBars header) s.config s'.config := pciAddDevice_yields
  have below : ∀ i ∈ storedBars header, i < 6 := by
    intro i member
    rw [storedBars] at member
    split at member
    · exact Nat.lt_of_lt_of_le (List.mem_range.mp member) (pciGetBarCount_le header)
    · cases member
  constructor
  · intro unchanged i member
    obtain ⟨_, s', -, ⟨-, probes⟩, same⟩ := adds.and unchanged
    have register := probes.inside i member
    rw [same, ← read i (below i member)] at register
    exact (probed_eq_iff (keeps i member)).mp register.symm
  · intro restores
    refine adds.mono ?_
    rintro _ s' ⟨-, probes⟩
    funext slot register
    by_cases here : slot = slotOf bus dev func ∧ ∃ i ∈ storedBars header, register = barRegister i
    · obtain ⟨rfl, i, member, rfl⟩ := here
      rw [probes.inside i member, ← read i (below i member)]
      exact (probed_eq_iff (keeps i member)).mpr (restores i member)
    · apply probes.outside
      intro same i member equal
      exact here ⟨same, i, member, equal⟩

end Probe

theorem bar_probe_iff (latch : Latch) (mask : Nat → W32) (bus dev func : Byte) (header : Header) (s : State)
    (read : ∀ i < 6, header.bar i = s.config (slotOf bus dev func) (barRegister i)) :
    (∀ i < 6, KeepsReadOnly latch (slotOf bus dev func) mask i →
      (ProbesSafely latch mask bus dev func header s i ↔ ProbeFits header mask i)) ∧
    ((∀ i ∈ storedBars header, KeepsReadOnly latch (slotOf bus dev func) mask i) →
      ((Yields s (pciAddDevice latch ⟨bus, dev, func⟩ header) fun _ s' => s'.config = s.config) ↔
        ∀ i ∈ storedBars header, Restores header mask i)) :=
  ⟨fun _ inside keeps => probesSafely_iff keeps read inside, fun keeps => pciAddDevice_unchanged_iff keeps read⟩

/-- Every BAR decodes pages of 4 KiB. -/
def pageLatch : Latch := fun _ _ old data => (data &&& sizeMask 12) ||| (old &&& ~~~sizeMask 12)

def stateOf (bars : List W32) : State :=
  ⟨fun _ register => if 4 ≤ register.toNat then bars.getD (register.toNat - 4) 0 else 0, 0, []⟩

theorem bar_probe_first :
    MemoryBar (sizeMask 12) ((headerOf [0xfebf0008]).bar 0) 12 ∧
    ProbesSafely pageLatch (fun _ => sizeMask 12) 0 3 0 (headerOf [0xfebf0008]) (stateOf [0xfebf0008]) 0 := by
  have read : ∀ i < 6, (headerOf [0xfebf0008]).bar i = (stateOf [0xfebf0008]).config (slotOf 0 3 0) (barRegister i) := by
    intro i inside
    interval_cases i <;> decide
  have probe := bar_probe_iff pageLatch (fun _ => sizeMask 12) 0 3 0 (headerOf [0xfebf0008]) (stateOf [0xfebf0008])
    read
  refine ⟨⟨by decide, by decide, by decide, rfl, by decide⟩, (probe.1 0 (by decide) fun _ _ => rfl).mpr ⟨fun _ => by decide, ?_⟩⟩
  intro zero
  exact absurd zero (by decide)

/-- The second of two BARs is moved to the place of the first, and a BAR that holds zero has no size. -/
theorem second_bar_moved :
    (stateOf [0xfeb00000, 0xfea00000]).config (slotOf 0 3 0) (barRegister 1) = 0xfea00000 ∧
    (Yields (stateOf [0xfeb00000, 0xfea00000]) (pciGetBarSize pageLatch 0 3 0 (headerOf [0xfeb00000, 0xfea00000]) 1)
      fun _ s' => s'.config (slotOf 0 3 0) (barRegister 1) = 0xfeb00000) ∧
    Yields (stateOf []) (pciGetBarSize pageLatch 0 3 0 (headerOf []) 0) fun size _ => size = 0 := by
  refine ⟨by decide, ?_, ?_⟩
  · refine (pciGetBarSize_yields (by decide)).mono ?_
    rintro _ s' ⟨-, -, config⟩
    rw [config, if_pos ⟨rfl, rfl⟩]
    decide
  · refine (pciGetBarSize_yields (by decide)).mono ?_
    rintro size s' ⟨same, -, -⟩
    rw [same]
    decide

end Neutrino.Pci
