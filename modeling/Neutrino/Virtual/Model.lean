import Neutrino.Virtual.Mmu

namespace Neutrino.Virtual

-- The functions of `mem_virt.c` behind `vmm_lock`. A pointer to a table is its virtual address.

def vmmGetActiveRecurseLink : W64 :=
  getRecursiveAddress recurseActive recurseActive recurseActive recurseActive 0#64

def vmmGetOtherRecurseLink : W64 :=
  getRecursiveAddress recurseActive recurseActive recurseActive recurseOther 0#64

def vmmGetEntry [Processor] (table entry : W64) : VmmM W64 := do
  if isPresent (← load (entryAddress table entry)) then
    return getMemAddress (getPhysicalAddress (← load (entryAddress table entry)))
  else return 0#64

def vmmCreateEntry [Processor] (table entry : W64) (prop : PageProperties) : VmmM W64 := do
  let pt := getMemAddress (← pmmAlloc)
  store (entryAddress table entry) (pageCreate (getRmemAddress pt) prop)
  if (← get).core.initialized then memoryClear (getPermAddress (getRmemAddress pt)) (pageSize / 8)
  vmmReloadCr3
  return pt

def vmmGetOrCreateEntry [Processor] (table entry : W64) (prop : PageProperties) : VmmM W64 := do
  if isPresent (← load (entryAddress table entry)) then
    return getMemAddress (getPhysicalAddress (← load (entryAddress table entry)))
  else vmmCreateEntry table entry prop

/-- The tables of an inactive space are read at the addresses that its entries hold. -/
def vmmVirtToPhys [Processor] (table virt : W64) : VmmM W64 := do
  if table = (← readCr3) ∨ table = 0#64 then
    let path := getPagingPath virt
    let table := getRecursiveAddress recurseActive path.pl4 path.dpt path.pd 0#64
    return getPhysicalAddress (← load (entryAddress table (path.pt.setWidth 64))) + getPageOffset virt
  else
    let pdpt ← vmmGetEntry table ((getPl4Index virt).setWidth 64)
    let pdir ← vmmGetEntry pdpt ((getDptIndex virt).setWidth 64)
    let ptab ← vmmGetEntry pdir ((getDirIndex virt).setWidth 64)
    return getPhysicalAddress (← load (entryAddress ptab ((getTabIndex virt).setWidth 64))) +
      getPageOffset virt

/-- Whether the loop over the entries from `i` on comes to its end. -/
def vmmIsTableFreeFrom [Processor] (table : W64) : List Nat → VmmM Bool
  | [] => return true
  | i :: rest => do
    if (← vmmGetEntry table (BitVec.ofNat 64 i)) ≠ 0#64 then return false
    vmmIsTableFreeFrom table rest

def vmmIsTableFree [Processor] (table : W64) : VmmM Bool := vmmIsTableFreeFrom table (List.range 512)

def isRecursive (tableAddr : W64) : Bool :=
  (getPagingPath tableAddr).pl4 == recurseActive || (getPagingPath tableAddr).pl4 == recurseOther

def vmmGetTableAddress [Processor] (tableAddr virtAddr : W64) (depth : Nat) : VmmM W64 := do
  if depth = 0 then return tableAddr
  let depth := if depth > 3 then 3 else depth
  let path := getPagingPath virtAddr
  let tpath := getPagingPath tableAddr
  if isRecursive tableAddr then
    let pdpt := getRecursiveAddress tpath.pl4 tpath.pl4 tpath.pt path.pl4 0#64
    if depth = 1 then return pdpt
    let _ ← vmmGetOrCreateEntry pdpt (path.dpt.setWidth 64) pageKernelWrite
    let pd := getRecursiveAddress tpath.pl4 tpath.pt path.pl4 path.dpt 0#64
    if depth = 2 then return pd
    let _ ← vmmGetOrCreateEntry pd (path.pd.setWidth 64) pageKernelWrite
    return getRecursiveAddress tpath.pt path.pl4 path.dpt path.pd 0#64
  else
    let pdpt ← vmmGetOrCreateEntry tableAddr (path.pl4.setWidth 64) pageKernelWrite
    let pd ← vmmGetOrCreateEntry pdpt (path.dpt.setWidth 64) pageKernelWrite
    if depth = 2 then return pd
    else vmmGetOrCreateEntry pd (path.pd.setWidth 64) pageKernelWrite

def vmmFreeIfNecessaryTable [Processor] (table parent parentIndex : W64) : VmmM Unit := do
  if ← vmmIsTableFree table then
    pmmFree (getPhysicalAddress (← load (entryAddress parent parentIndex)))
    let entry ← load (entryAddress parent parentIndex)
    store (entryAddress parent parentIndex) (pageClearBit entry presentBitOffset)

def vmmFreeIfNecessaryTables [Processor] (table unmappedAddr : W64) : VmmM Unit := do
  let path := getPagingPath unmappedAddr
  let pdpt ← vmmGetTableAddress table unmappedAddr 1
  let pd ← vmmGetTableAddress table unmappedAddr 2
  let pt ← vmmGetTableAddress table unmappedAddr 3
  vmmFreeIfNecessaryTable pt pd (path.pd.setWidth 64)
  vmmFreeIfNecessaryTable pd pdpt (path.dpt.setWidth 64)
  vmmFreeIfNecessaryTable pdpt table (path.pl4.setWidth 64)

def vmmGetMostNestedTable [Processor] (tableAddr virtAddr : W64) (prop : PageProperties) : VmmM W64 := do
  let path := getPagingPath virtAddr
  let tpath := getPagingPath tableAddr
  let suProp : PageProperties := ⟨true, prop.user, prop.cacheDisable⟩
  if isRecursive tableAddr then
    let _ ← vmmGetOrCreateEntry (getRecursiveAddress tpath.pl4 tpath.pl4 tpath.pl4 tpath.pt 0#64)
      (path.pl4.setWidth 64) suProp
    let _ ← vmmGetOrCreateEntry (getRecursiveAddress tpath.pl4 tpath.pl4 tpath.pt path.pl4 0#64)
      (path.dpt.setWidth 64) suProp
    let _ ← vmmGetOrCreateEntry (getRecursiveAddress tpath.pl4 tpath.pt path.pl4 path.dpt 0#64)
      (path.pd.setWidth 64) suProp
    return getRecursiveAddress tpath.pt path.pl4 path.dpt path.pd 0#64
  else
    let pdpt ← vmmGetOrCreateEntry tableAddr (path.pl4.setWidth 64) suProp
    let pd ← vmmGetOrCreateEntry pdpt (path.dpt.setWidth 64) suProp
    vmmGetOrCreateEntry pd (path.pd.setWidth 64) suProp

def vmmMapPageImpl [Processor] (tableAddr physAddr virtAddr : W64) (prop : PageProperties) : VmmM Unit := do
  let path := getPagingPath virtAddr
  let pt ← vmmGetMostNestedTable tableAddr virtAddr prop
  store (entryAddress pt (path.pt.setWidth 64)) (pageCreate physAddr prop)

def vmmUnmapPageImpl [Processor] (tableAddr virtAddr : W64) : VmmM Bool := do
  let pt ← vmmGetMostNestedTable tableAddr virtAddr pageKernelWrite
  if pt = 0#64 then return false
  let slot := entryAddress pt ((getPagingPath virtAddr).pt.setWidth 64)
  let entry ← load slot
  store slot (pageClearBit entry presentBitOffset)
  vmmFreeIfNecessaryTables tableAddr virtAddr
  vmmReloadTlb virtAddr
  return true

def otherSlot : W64 := entryAddress vmmGetActiveRecurseLink (recurseOther.setWidth 64)

def vmmMapPage [Processor] (table physAddr virtAddr : W64) (prop : PageProperties) : VmmM Unit := do
  if (← readCr3) = table ∨ table = 0#64 then
    vmmMapPageImpl vmmGetActiveRecurseLink physAddr virtAddr prop
  else
    store otherSlot (pageCreate table prop)
    vmmReloadTlb vmmGetOtherRecurseLink
    vmmMapPageImpl vmmGetOtherRecurseLink physAddr virtAddr prop
    store otherSlot 0#64
  vmmReloadTlb virtAddr

def vmmUnmapPage [Processor] (table virtAddr : W64) : VmmM Bool := do
  let res ← do
    if (← readCr3) = table ∨ table = 0#64 then vmmUnmapPageImpl vmmGetActiveRecurseLink virtAddr
    else
      store otherSlot (pageCreate table pageKernelWrite)
      vmmReloadTlb recursePml4Other
      let res ← vmmUnmapPageImpl vmmGetOtherRecurseLink virtAddr
      store otherSlot 0#64
      pure res
  vmmReloadTlb virtAddr
  return res

def pageAt (base : W64) (i : Nat) : W64 := base + BitVec.ofNat 64 (i * pageSize)

/-- The loops over a `size_t` compute the offset of a block in its 32 bits. -/
def blockAt (base : W64) (i : Nat) : W64 := base + (BitVec.ofNat 32 i * 0x1000#32).setWidth 64

def vmmAllocateMemory [Processor] (table : W64) (blocks : Nat) (prop : PageProperties) : VmmM W64 := do
  let physAddr ← pmmAllocSeries blocks
  (List.range blocks).forM fun i =>
    vmmMapPage table (blockAt physAddr i) (getMemAddress (blockAt physAddr i)) prop
  return getMemAddress physAddr

def vmmFreeMemory [Processor] (table addr : W64) (blocks : Nat) : VmmM Bool := do
  let physAddr ← vmmVirtToPhys table addr
  (List.range blocks).forM fun i => discard (vmmUnmapPage table (blockAt addr i))
  pmmFreeSeries physAddr blocks
  return true

/-- The loop over `j`, which always runs to its end. -/
def entriesFree [Processor] (table : W64) (first : Nat) : List Nat → VmmM Bool
  | [] => return true
  | j :: rest => do
    let entry ← vmmGetEntry table (BitVec.ofNat 64 (first + j))
    let others ← entriesFree table first rest
    return entry = 0#64 && others

def vmmFindFreeHeapSeries [Processor] (size : Nat) (heapBase : W64) (prop : PageProperties) : VmmM W64 := do
  let heap := getPl4Index heapBase
  let pl4Addr := getRecursiveAddress recurseActive recurseActive recurseActive recurseActive
    (heap.setWidth 64)
  let found ← (List.range 512).findSomeM? fun dpt => do
    if (← vmmGetEntry pl4Addr (BitVec.ofNat 64 dpt)) = 0#64 then
      discard (vmmCreateEntry pl4Addr (BitVec.ofNat 64 dpt) prop)
    let dptAddr := getRecursiveAddress recurseActive recurseActive recurseActive heap
      (BitVec.ofNat 64 dpt)
    (List.range 512).findSomeM? fun pd => do
      if (← vmmGetEntry dptAddr (BitVec.ofNat 64 pd)) = 0#64 then
        discard (vmmCreateEntry dptAddr (BitVec.ofNat 64 pd) prop)
      let pdAddr := getRecursiveAddress recurseActive recurseActive heap (BitVec.ofNat 9 dpt)
        (BitVec.ofNat 64 pd)
      (List.range 512).findSomeM? fun pt => do
        discard (vmmGetOrCreateEntry pdAddr (BitVec.ofNat 64 pt) prop)
        let ptAddr := getRecursiveAddress recurseActive heap (BitVec.ofNat 9 dpt)
          (BitVec.ofNat 9 pd) (BitVec.ofNat 64 pt)
        (List.range 512).findSomeM? fun page => do
          if (← vmmGetEntry ptAddr (BitVec.ofNat 64 page)) ≠ 0#64 then return none
          if ← entriesFree ptAddr page (List.range size) then
            return some (getAddress
              ⟨heap, BitVec.ofNat 9 pd, BitVec.ofNat 9 pt, BitVec.ofNat 9 page⟩ 0#64)
          else return none
  match found with
  | some address => return address
  | none => failure

def userHeapOffset : W64 := 0xf8000000000#64

/-- With one processor the copies into the tables of the others fall away. -/
def vmmAllocateHeap [Processor] (blocks : Nat) (user : Bool) : VmmM W64 := do
  let heapBase := if user then userHeapOffset else heapOffset
  let prop : PageProperties := ⟨true, user, true⟩
  let physAddr ← pmmAllocSeries blocks
  let virtAddr ← vmmFindFreeHeapSeries blocks heapBase prop
  (List.range blocks).forM fun i =>
    vmmMapPage 0#64 (blockAt physAddr i) (blockAt virtAddr i) prop
  return virtAddr

/-- `pageTable` is `get_current_cpu()->page_table`. -/
def newPageTable [Processor] (pageTable : W64) : VmmM W64 := do
  let p ← vmmAllocateMemory pageTable 1 pageKernelWrite
  memoryClear p (pageSize / 8)
  (List.range 256).forM fun k => do
    let entry := BitVec.ofNat 64 (256 + k)
    store (entryAddress p entry) (← load (entryAddress vmmGetActiveRecurseLink entry))
  store (entryAddress p (recurseActive.setWidth 64)) (pageSelf p)
  return getRmemAddress p

def destroyPageTable [Processor] (pageTable table : W64) : VmmM Unit := do
  writeCr3 pageTable
  discard (vmmFreeMemory pageTable (getMemAddress table) 1)

end Neutrino.Virtual
