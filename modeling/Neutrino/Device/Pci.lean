import Neutrino.Library.Partial
import Neutrino.Machine.Word

namespace Neutrino.Pci

open Library

abbrev Byte := BitVec 8
abbrev W16 := BitVec 16

/-- A function of a device, as the address lines of the bus have it. -/
structure Slot where
  bus : BitVec 8
  device : BitVec 5
  function : BitVec 3
deriving DecidableEq

/-- The 64 registers of each function. -/
abbrev Config := Slot → BitVec 6 → W32

/-- What a register holds after a write, given what it held before. -/
abbrev Latch := Slot → BitVec 6 → W32 → W32 → W32

/-- `PCILocation`. -/
structure Location where
  bus : Byte
  device : Byte
  function : Byte
deriving DecidableEq

inductive BarType
  | memorySpace
  | ioSpace
deriving DecidableEq

/-- `PCIBarInfo`, with its range. -/
structure BarInfo where
  type : BarType
  base : W64
  size : W32

/-- `PCIDevice`. -/
structure Device where
  vendorId : W16
  deviceId : W16
  location : Location
  classCode : Byte
  subclass : Byte
  bars : List BarInfo

/-- The configuration space, the register behind `CONFIG_ADDR_PORT` and `device_list`. -/
structure State where
  config : Config
  address : W32
  deviceList : List Device

/-- There is no outcome when the recursion does not come to an end. -/
abbrev PciM := StateT State Option

def addrEnable : W32 := 1 <<< 31

def addrBusID (x : Byte) : W32 := (x.setWidth 32 &&& 0xff) <<< 16

def addrDevID (x : Byte) : W32 := (x.setWidth 32 &&& 0x1f) <<< 11

def addrFunID (x : Byte) : W32 := (x.setWidth 32 &&& 3) <<< 8

def configAddress (bus slot func : Byte) (offset : W32) : W32 :=
  addrEnable ||| addrBusID bus ||| addrDevID slot ||| addrFunID func ||| (offset &&& 0xfc)

/-- The function and the register that the host bridge takes an address for. -/
def selected (address : W32) : Slot × BitVec 6 :=
  (⟨address.extractLsb' 16 8, address.extractLsb' 11 5, address.extractLsb' 8 3⟩, address.extractLsb' 2 6)

/-- `port_dword_out(CONFIG_ADDR_PORT, address)`. -/
def selectAddress (address : W32) : PciM Unit := modify fun s => { s with address }

/-- `port_dword_in(CONFIG_DATA_PORT)`. -/
def dataIn : PciM W32 := do
  let s ← get
  return s.config (selected s.address).1 (selected s.address).2

/-- `port_dword_out(CONFIG_DATA_PORT, data)`. -/
def dataOut (latch : Latch) (data : W32) : PciM Unit := modify fun s =>
  let target := selected s.address
  { s with config := fun slot register =>
      if slot = target.1 ∧ register = target.2 then latch slot register (s.config slot register) data
      else s.config slot register }

def pciReadConfig (bus slot func : Byte) (offset : W32) : PciM W16 := do
  selectAddress (configAddress bus slot func offset)
  let data ← dataIn
  return ((data >>> ((offset &&& 2) * 8).toNat) &&& 0xffff).setWidth 16

def pciWriteConfig (latch : Latch) (bus slot func : Byte) (offset data : W32) : PciM Unit := do
  selectAddress (configAddress bus slot func offset)
  dataOut latch data

/-- The members' offsets in `PCIConfigDataCommon` and `PCIConfigPCIBridge`. -/
def vendorOffset : W32 := 0
def subclassOffset : W32 := 10
def classCodeOffset : W32 := 11
def headerTypeOffset : W32 := 14
def secondaryBusNumOffset : W32 := 25

def invalidVendor : W16 := 0xffff
def bridge : W16 := 0x6
def pci2PciBridge : W16 := 0x4

/-- `PCIHeaderType`. -/
structure HeaderType where
  type : BitVec 7
  multifunction : Bool

def pciGetVendor (bus dev func : Byte) : PciM W16 := pciReadConfig bus dev func vendorOffset

def headerType (res : Byte) : HeaderType := ⟨res.setWidth 7, res.getLsbD 7⟩

def pciGetHeader (bus dev func : Byte) : PciM HeaderType := do
  let res ← pciReadConfig bus dev func headerTypeOffset
  return headerType (res.setWidth 8)

def pciGetClass (bus dev func : Byte) : PciM W16 := do
  return (← pciReadConfig bus dev func classCodeOffset) >>> 8

def pciGetSubclass (bus dev func : Byte) : PciM W16 := do
  return (← pciReadConfig bus dev func subclassOffset) &&& 0xff

def headerSize (type : BitVec 7) : Nat := if type = 0 then 64 else if type = 1 then 64 else 72

abbrev Header := List W16

def pciReadFullConfig (bus dev func : Byte) : PciM Header := do
  let hdr ← pciGetHeader bus dev func
  (List.range (headerSize hdr.type / 2)).mapM fun offset =>
    pciReadConfig bus dev func (BitVec.ofNat 32 (offset * 2))

def Header.word (header : Header) (i : Nat) : W16 := header.getD i 0

def Header.subclass (header : Header) : Byte := (header.word 5).setWidth 8
def Header.classCode (header : Header) : Byte := (header.word 5 >>> 8).setWidth 8
def Header.type (header : Header) : HeaderType := headerType ((header.word 7).setWidth 8)

/-- `base_addr[i]`, or the double word that follows the array. -/
def Header.bar (header : Header) (i : Nat) : W32 := header.word (9 + 2 * i) ++ header.word (8 + 2 * i)

def barType (bar : W32) : BarType := if bar.getLsbD 0 then .ioSpace else .memorySpace

/-- `memory_bar_type` starts at the same bit as `bar_type`. -/
def memoryBarType (bar : W32) : BitVec 2 := bar.setWidth 2

def getBarAddr (header : Header) (i : Nat) : W64 :=
  let bar := header.bar i
  if barType bar = .ioSpace then (bar &&& 0xfffffffc).setWidth 64
  else if memoryBarType bar = 1 then (bar &&& 0xfff0).setWidth 64
  else if memoryBarType bar = 0 then (bar &&& 0xfffffff0).setWidth 64
  else if memoryBarType bar = 2 then
    (bar &&& 0xfffffff0).setWidth 64 + ((header.bar (i + 1)).setWidth 64 <<< 32)
  else 0

def barListOffset : W32 := 0x10

def pciGetBarSize (latch : Latch) (bus dev func : Byte) (header : Header) (i : Nat) : PciM W32 := do
  if header.bar i = 0 then return 0
  let savedAddr := getBarAddr header 0
  let offset := barListOffset + BitVec.ofNat 32 (i * 4)
  if barType (header.bar i) = .memorySpace then
    pciWriteConfig latch bus dev func offset 0xffffffff
    selectAddress (configAddress bus dev func offset)
    let size := ~~~((← dataIn) &&& 0xfffffff0) + 1
    pciWriteConfig latch bus dev func offset (savedAddr.setWidth 32)
    return size
  return 0

/-- The loop of `pci_get_bar_count` takes at most `limit` iterations. -/
def countBars (header : Header) (limit : Nat) : (fuel : Nat) → (i size : Nat) → Nat
  | 0, _, size => size
  | fuel + 1, i, size =>
    if i < limit ∧ header.bar i ≠ 0 then
      countBars header limit fuel
        (i + if barType (header.bar i) = .memorySpace ∧ memoryBarType (header.bar i) = 2 then 2 else 1) (size + 1)
    else size

def pciGetBarCount (header : Header) : Nat :=
  let limit := if header.type.type = 0 then 6 else 2
  countBars header limit limit 0 0

/-- The loop of `pci_add_device` over the BARs of a header. -/
def readBars (latch : Latch) (loc : Location) (common : Header) : PciM (List BarInfo) :=
  (List.range (pciGetBarCount common)).mapM fun i => do
    let size ← pciGetBarSize latch loc.bus loc.device loc.function common i
    return ⟨barType (common.bar i), getBarAddr common i, size⟩

def pciAddDevice (latch : Latch) (loc : Location) (common : Header) : PciM Unit := do
  let bars ← if common.type.type = 0 ∨ common.type.type = 1 then readBars latch loc common else pure []
  modify fun s => { s with deviceList := s.deviceList ++ [{
    vendorId := common.word 0
    deviceId := common.word 1
    location := loc
    classCode := common.classCode
    subclass := common.subclass
    bars }] }

/-- The recursive call goes through `checkBus`. -/
def pciCheckFun (checkBus : Byte → PciM Unit) (bus dev func : Byte) : PciM Unit := do
  let baseClass ← pciGetClass bus dev func
  let subClass ← pciGetSubclass bus dev func
  if baseClass = bridge ∧ subClass = pci2PciBridge then
    let secondaryBus ← pciReadConfig bus dev func secondaryBusNumOffset
    checkBus (secondaryBus.setWidth 8)

/-- A function that is there: what is behind it, then the function itself. -/
def enterFun (latch : Latch) (checkBus : Byte → PciM Unit) (bus dev func : Byte) : PciM Unit := do
  pciCheckFun checkBus bus dev func
  pciAddDevice latch ⟨bus, dev, func⟩ (← pciReadFullConfig bus dev func)

def pciCheckDev (latch : Latch) (checkBus : Byte → PciM Unit) (bus dev : Byte) : PciM Unit := do
  if (← pciGetVendor bus dev 0) = invalidVendor then return
  enterFun latch checkBus bus dev 0
  if (← pciGetHeader bus dev 0).multifunction then
    [1, 2, 3].forM fun func => do
      if (← pciGetVendor bus dev func) ≠ invalidVendor then enterFun latch checkBus bus dev func

def devices : List Byte := (List.range 32).map (BitVec.ofNat 8)

def pciCheckBus (latch : Latch) : (depth : Nat) → Byte → PciM Unit
  | 0, _ => failure
  | depth + 1, bus => devices.forM fun dev => pciCheckDev latch (pciCheckBus latch depth) bus dev

/-- The loop of `pci_check_all_buses`, from `func` on. -/
def checkBuses (latch : Latch) (depth : Nat) : List Byte → PciM Unit
  | [] => pure ()
  | func :: rest => do
    if (← pciGetVendor 0 0 func) ≠ invalidVendor then return
    pciCheckBus latch depth func
    checkBuses latch depth rest

/-- `depth` is how far the scans of buses may nest. -/
def pciCheckAllBuses (latch : Latch) (depth : Nat) : PciM Unit := do
  let header ← pciGetHeader 0 0 0
  if !header.multifunction then pciCheckBus latch (depth + 1) 0
  else checkBuses latch (depth + 1) [0, 1, 2, 3, 4, 5, 6, 7]

end Neutrino.Pci
