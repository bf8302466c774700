import Neutrino.Virtual.Windows

namespace Neutrino.Virtual

open Library

-- The four loops of `vmm_find_free_heap_series`, each with the level that it goes through.

def ensureEntry (table entry : W64) (prop : PageProperties) : VmmM Unit := do
  if (← vmmGetEntry table entry) = 0#64 then discard (vmmCreateEntry table entry prop)

def tryPage (heap : Index) (size dpt pd pt page : Nat) : VmmM (Option W64) := do
  let ptAddr := getRecursiveAddress recurseActive heap (BitVec.ofNat 9 dpt) (BitVec.ofNat 9 pd)
    (BitVec.ofNat 64 pt)
  if (← vmmGetEntry ptAddr (BitVec.ofNat 64 page)) ≠ 0#64 then return none
  if ← entriesFree ptAddr page (List.range size) then
    return some (getAddress ⟨heap, BitVec.ofNat 9 pd, BitVec.ofNat 9 pt, BitVec.ofNat 9 page⟩ 0#64)
  else return none

def tryTable (heap : Index) (prop : PageProperties) (size dpt pd pt : Nat) : VmmM (Option W64) := do
  discard (vmmGetOrCreateEntry (getRecursiveAddress recurseActive recurseActive heap (BitVec.ofNat 9 dpt)
    (BitVec.ofNat 64 pd)) (BitVec.ofNat 64 pt) prop)
  (List.range 512).findSomeM? (tryPage heap size dpt pd pt)

def tryDirectory (heap : Index) (prop : PageProperties) (size dpt pd : Nat) : VmmM (Option W64) := do
  ensureEntry (getRecursiveAddress recurseActive recurseActive recurseActive heap (BitVec.ofNat 64 dpt))
    (BitVec.ofNat 64 pd) prop
  (List.range 512).findSomeM? (tryTable heap prop size dpt pd)

def tryPointers (heap : Index) (prop : PageProperties) (size dpt : Nat) : VmmM (Option W64) := do
  ensureEntry (getRecursiveAddress recurseActive recurseActive recurseActive recurseActive
    (heap.setWidth 64)) (BitVec.ofNat 64 dpt) prop
  (List.range 512).findSomeM? (tryDirectory heap prop size dpt)

theorem ensureEntry_bind {α : Type} (table entry : W64) (prop : PageProperties) (next : VmmM α) :
    (do ensureEntry table entry prop; next) = (do
      if (← vmmGetEntry table entry) = 0#64 then
        discard (vmmCreateEntry table entry prop)
        next
      else next) := by
  simp only [ensureEntry, bind_assoc]
  congr 1
  funext a
  split
  · rfl
  · simp only [pure_bind]

theorem vmmFindFreeHeapSeries_eq (size : Nat) (heapBase : W64) (prop : PageProperties) :
    vmmFindFreeHeapSeries size heapBase prop =
      ((List.range 512).findSomeM? (tryPointers (getPl4Index heapBase) prop size) >>= fun found =>
        match found with
        | some address => pure address
        | none => failure) := by
  have nested : tryPointers (getPl4Index heapBase) prop size = fun dpt =>
      (do
        ensureEntry (getRecursiveAddress recurseActive recurseActive recurseActive recurseActive
          ((getPl4Index heapBase).setWidth 64)) (BitVec.ofNat 64 dpt) prop
        (List.range 512).findSomeM? fun pd =>
          (do
            ensureEntry (getRecursiveAddress recurseActive recurseActive recurseActive
              (getPl4Index heapBase) (BitVec.ofNat 64 dpt)) (BitVec.ofNat 64 pd) prop
            (List.range 512).findSomeM? (tryTable (getPl4Index heapBase) prop size dpt pd))) := rfl
  rw [nested]
  simp only [ensureEntry_bind]
  rfl

/-- The slots of `HEAP_OFFSET` and `USER_HEAP_OFFSET`. -/
def HeapSlot (heap : Index) : Prop := heap = 508#9 ∨ heap = 31#9

theorem heapSlot_base {heapBase : W64} (base : heapBase = heapOffset ∨ heapBase = userHeapOffset) :
    HeapSlot (getPl4Index heapBase) := by
  rcases base with rfl | rfl
  · exact .inl (by decide)
  · exact .inr (by decide)

section Places

variable {heap : Index} {xs ys : List Index}

theorem HeapSlot.bound (slot : HeapSlot heap) : heap.toNat < 511 := by
  rcases slot with rfl | rfl <;> decide

theorem HeapSlot.inner (slot : HeapSlot heap) :
    (heap ≠ recurseActive ∧ heap ≠ permSlot) ∧ heap + 1#9 ≠ recurseActive ∧ heap + 1#9 ≠ permSlot := by
  rcases slot with rfl | rfl <;> decide

theorem entry_place (shift : window recurseActive xs + 4096#64 = window recurseActive ys) {a b : Nat}
    (small : a < 512) (small' : b < 512) :
    ∃ zs i, (zs = xs ∨ zs = ys) ∧
      entryAddress (entryAddress (window recurseActive xs) (BitVec.ofNat 64 a)) (BitVec.ofNat 64 b) =
        entryAddress (window recurseActive zs) (BitVec.setWidth 64 (i : Index)) := by
  rw [entryAddress_twice]
  by_cases inside : a + b < 512
  · exact ⟨xs, _, .inl rfl, entryAddress_inside inside⟩
  · refine ⟨ys, BitVec.ofNat 9 (a + b - 512), .inr rfl, ?_⟩
    rw [entryAddress_next (by omega) (by omega), shift]

theorem pl4_place (slot : HeapSlot heap) {dpt : Nat} (small : dpt < 512) :
    ∃ zs i, (zs = [] ∨ zs = [511#9]) ∧
      entryAddress (getRecursiveAddress recurseActive recurseActive recurseActive recurseActive
        (heap.setWidth 64)) (BitVec.ofNat 64 dpt) =
      entryAddress (window recurseActive zs) (BitVec.setWidth 64 (i : Index)) := by
  have wide : heap.setWidth 64 = BitVec.ofNat 64 heap.toNat := by
    rcases slot with rfl | rfl <;> rfl
  have shift : window recurseActive [] + 4096#64 = window recurseActive [511#9] :=
    tableAddress_next (by decide)
  rw [wide]
  exact entry_place shift heap.isLt small

theorem dpt_place (slot : HeapSlot heap) {dpt pd : Nat} (small : dpt < 512) (small' : pd < 512) :
    ∃ zs i, (zs = [heap] ∨ zs = [heap + 1#9]) ∧
      entryAddress (getRecursiveAddress recurseActive recurseActive recurseActive heap
        (BitVec.ofNat 64 dpt)) (BitVec.ofNat 64 pd) =
      entryAddress (window recurseActive zs) (BitVec.setWidth 64 (i : Index)) := by
  have shift : window recurseActive [heap] + 4096#64 = window recurseActive [heap + 1#9] :=
    tableAddress_next slot.bound
  exact entry_place shift small small'

theorem pd_place (slot : HeapSlot heap) (dpt : Nat) {pd pt : Nat} (small : pd < 512) (small' : pt < 512) :
    ∃ a b i, (a = heap ∨ a = heap + 1#9) ∧
      entryAddress (getRecursiveAddress recurseActive recurseActive heap (BitVec.ofNat 9 dpt)
        (BitVec.ofNat 64 pd)) (BitVec.ofNat 64 pt) =
      entryAddress (window recurseActive [a, b]) (BitVec.setWidth 64 (i : Index)) := by
  by_cases last : (BitVec.ofNat 9 dpt).toNat < 511
  · have shift : window recurseActive [heap, BitVec.ofNat 9 dpt] + 4096#64 =
        window recurseActive [heap, BitVec.ofNat 9 dpt + 1#9] := tableAddress_next last
    obtain ⟨zs, i, place, same⟩ := entry_place shift small small'
    rcases place with rfl | rfl
    · exact ⟨heap, _, i, .inl rfl, same⟩
    · exact ⟨heap, _, i, .inl rfl, same⟩
  · have full : BitVec.ofNat 9 dpt = 511#9 := by
      apply BitVec.eq_of_toNat_eq
      have bound := (BitVec.ofNat 9 dpt).isLt
      simp only [BitVec.toNat_ofNat] at last bound ⊢
      omega
    have shift : window recurseActive [heap, 511#9] + 4096#64 = window recurseActive [heap + 1#9, 0#9] :=
      tableAddress_carry slot.bound
    rw [full]
    obtain ⟨zs, i, place, same⟩ := entry_place shift small small'
    rcases place with rfl | rfl
    · exact ⟨heap, 511#9, i, .inl rfl, same⟩
    · exact ⟨heap + 1#9, 0#9, i, .inr rfl, same⟩

end Places

section Effects

variable {m : Machine} {roots ram : Set Frame} {mirror : Frame} {heap : Index} {prop : PageProperties}
  {size : Nat}

theorem entriesFree_ensures (table : W64) (first : Nat) (more : List Nat) :
    Ensures m (entriesFree table first more) fun _ m' => m'.core = m.core := by
  induction more generalizing m with
  | nil => exact .pure rfl
  | cons j more ih =>
    refine .bind (vmmGetEntry_ensures _ _) ?_
    rintro a m1 ⟨core, -⟩
    refine .bind ih ?_
    intro _ m2 core'
    exact .pure (core'.trans core)

theorem tryPage_ensures (heap : Index) (size dpt pd pt page : Nat) :
    Ensures m (tryPage heap size dpt pd pt page) fun answer m' => m'.core = m.core ∧
      ∀ va ∈ answer, getPl4Index va = heap := by
  refine .bind (vmmGetEntry_ensures _ _) ?_
  rintro a m1 ⟨core, -⟩
  split
  · exact .pure ⟨core, nofun⟩
  · refine .bind (entriesFree_ensures _ _ _) ?_
    intro free m2 core'
    split
    · refine .pure ⟨core'.trans core, ?_⟩
      rintro va ⟨⟩
      exact congrArg PagingPath.pl4 (getPagingPath_getAddress _)
    · exact .pure ⟨core'.trans core, nofun⟩

variable (family : Family m.core roots ram mirror) (tidy : Tidy m.core)
include family tidy

/-- A loop of the search, whose iterations are made in sound states. -/
theorem Family.search_edits {n : Machine} {body : Nat → VmmM (Option W64)} (edits : Edits m.core.cr3 m.core n.core)
    (each : ∀ k < 512, ∀ n : Machine, Family n.core roots ram mirror → Tidy n.core → Ensures n (body k) fun answer m' =>
      Edits n.core.cr3 n.core m'.core ∧ ∀ va ∈ answer, getPl4Index va = heap) :
    Ensures n ((List.range 512).findSomeM? body) fun answer m' => Edits m.core.cr3 m.core m'.core ∧
      ∀ va ∈ answer, getPl4Index va = heap := by
  refine Ensures.findSomeM (fun k member n kept => ?_) edits
  refine (each k (List.mem_range.mp member) n (family.edits family.active kept)
    (family.edits_tidy family.active kept tidy)).mono ?_
  rintro answer n' ⟨more, right⟩
  rw [kept.cr3] at more
  exact ⟨kept.trans more, right⟩

variable (slot : HeapSlot heap)
include slot

theorem Family.tryTable_edits {dpt pd pt : Nat} (small : pd < 512) (small' : pt < 512) :
    Ensures m (tryTable heap prop size dpt pd pt) fun answer m' => Edits m.core.cr3 m.core m'.core ∧
      ∀ va ∈ answer, getPl4Index va = heap := by
  obtain ⟨a, b, i, among, same⟩ := pd_place slot dpt small small'
  have head : ∀ j rest, [a, b] = j :: rest → j ≠ recurseActive ∧ j ≠ permSlot := by
    intro j rest split
    cases split
    rcases among with rfl | rfl
    · exact slot.inner.1
    · exact slot.inner.2
  refine .bind (.discard (family.vmmGetOrCreateEntry_place tidy (by simp) head prop same)) ?_
  intro _ m1 edits
  refine Ensures.findSomeM (fun page _ n kept => ?_) edits
  refine (tryPage_ensures heap size dpt pd pt page).mono ?_
  rintro answer n' ⟨core, right⟩
  rw [core]
  exact ⟨kept, right⟩

theorem Family.tryDirectory_edits {dpt pd : Nat} (small : dpt < 512) (small' : pd < 512) :
    Ensures m (tryDirectory heap prop size dpt pd) fun answer m' => Edits m.core.cr3 m.core m'.core ∧
      ∀ va ∈ answer, getPl4Index va = heap := by
  obtain ⟨zs, i, among, same⟩ := dpt_place slot small small'
  have head : ∀ j rest, zs = j :: rest → j ≠ recurseActive ∧ j ≠ permSlot := by
    rintro j rest rfl
    rcases among with split | split
    · cases split
      exact slot.inner.1
    · cases split
      exact slot.inner.2
  have high : zs.length ≤ 2 := by rcases among with rfl | rfl <;> simp
  refine .bind (family.ensureEntry_place tidy high head prop same) ?_
  intro _ m1 edits
  exact family.search_edits tidy edits fun pt below n later tidy' => later.tryTable_edits tidy' slot small' below

theorem Family.tryPointers_edits {dpt : Nat} (small : dpt < 512) :
    Ensures m (tryPointers heap prop size dpt) fun answer m' => Edits m.core.cr3 m.core m'.core ∧
      ∀ va ∈ answer, getPl4Index va = heap := by
  obtain ⟨zs, i, among, same⟩ := pl4_place slot small
  have head : ∀ j rest, zs = j :: rest → j ≠ recurseActive ∧ j ≠ permSlot := by
    rintro j rest rfl
    rcases among with split | split
    · cases split
    · cases split
      decide
  have high : zs.length ≤ 2 := by rcases among with rfl | rfl <;> simp
  refine .bind (family.ensureEntry_place tidy high head prop same) ?_
  intro _ m1 edits
  exact family.search_edits tidy edits fun pd below n later tidy' => later.tryDirectory_edits tidy' slot small below

end Effects

section Search

variable {m : Machine} {roots ram : Set Frame} {mirror : Frame} {heapBase : W64}

theorem Family.vmmFindFreeHeapSeries_edits (family : Family m.core roots ram mirror) (tidy : Tidy m.core)
    (base : heapBase = heapOffset ∨ heapBase = userHeapOffset) (size : Nat) (prop : PageProperties) :
    Ensures m (vmmFindFreeHeapSeries size heapBase prop) fun va m' => Edits m.core.cr3 m.core m'.core ∧
      getPl4Index va = getPl4Index heapBase := by
  have slot := heapSlot_base base
  rw [vmmFindFreeHeapSeries_eq]
  refine .bind (family.search_edits tidy .refl fun dpt below n later tidy' => later.tryPointers_edits tidy' slot below) ?_
  rintro (- | va) n ⟨kept, right⟩
  · rintro a n' ⟨⟩
  · exact .pure ⟨kept, right va rfl⟩

/-- What is asked of the pages that `vmm_allocate_heap` maps. -/
def Mappable (c : Core) (blocks : Nat) (va : W64) : Prop :=
  ∀ i < blocks, getPl4Index (blockAt va i) ≠ recurseActive ∧ plain c.mem c.cr3 (directories (blockAt va i)) = true

theorem Family.mapSeries_edits (family : Family m.core roots ram mirror) {blocks : Nat} {va physAddr : W64}
    {prop : PageProperties} (mappable : Mappable m.core blocks va) :
    Ensures m ((List.range blocks).forM fun i => vmmMapPage 0#64 (blockAt physAddr i) (blockAt va i) prop)
      fun _ m' => Edits m.core.cr3 m.core m'.core := by
  have start : Edits m.core.cr3 m.core m.core := .refl
  refine Ensures.forM (fun i member n kept => ?_) start
  rintro ⟨⟩ n' taken
  obtain ⟨outside, way⟩ := mappable i (List.mem_range.mp member)
  have later := family.edits family.active kept
  have clear := family.edits_plain family.active family.active kept outside way
  rw [← kept.cr3] at clear
  have more := mapPage_edits (later.editable later.active outside clear)
    (later.vmmMapPage_active (.inl rfl) outside clear taken)
  rw [kept.cr3] at more
  exact kept.trans more

theorem heapBase_cases (user : Bool) : (if user then userHeapOffset else heapOffset) = heapOffset ∨
    (if user then userHeapOffset else heapOffset) = userHeapOffset := by
  cases user <;> simp

theorem vmmAllocateHeap_some {blocks : Nat} {user : Bool} {va : W64} {m' : Machine}
    (taken : vmmAllocateHeap blocks user m = some (va, m')) : ∃ f rest m2, m.core.supply = f :: rest ∧
      vmmFindFreeHeapSeries blocks (if user then userHeapOffset else heapOffset) ⟨true, user, true⟩
        (m.withCore (m.core.withSupply rest)) = some (va, m2) ∧
      ((List.range blocks).forM fun i => vmmMapPage 0#64 (blockAt (frameAddress f) i) (blockAt va i) ⟨true, user, true⟩)
        m2 = some ((), m') := by
  obtain ⟨physAddr, m1, first, taken⟩ := bind_some taken
  obtain ⟨va', m2, searched, taken⟩ := bind_some taken
  obtain ⟨⟨⟩, m3, mapped, done⟩ := bind_some taken
  obtain ⟨rfl, rfl⟩ := Prod.mk.inj (Option.some.inj done)
  obtain ⟨f, rest, supply, rfl, rfl⟩ := pmmAlloc_some first
  exact ⟨f, rest, m2, supply, searched, mapped⟩

theorem Family.vmmAllocateHeap_edits (family : Family m.core roots ram mirror) (tidy : Tidy m.core)
    (blocks : Nat) (user : Bool) :
    Ensures m (vmmAllocateHeap blocks user) fun va m' => Mappable m.core blocks va →
      ∃ f rest, m.core.supply = f :: rest ∧ Edits m.core.cr3 (m.core.withSupply rest) m'.core := by
  intro va m' taken mappable
  obtain ⟨f, rest, m2, supply, searched, mapped⟩ := vmmAllocateHeap_some taken
  obtain ⟨later, -⟩ := family.taken supply
  obtain ⟨found, -⟩ := Family.vmmFindFreeHeapSeries_edits (m := m.withCore (m.core.withSupply rest)) later tidy
    (heapBase_cases user) blocks _ _ _ searched
  have again : Mappable m2.core blocks va := by
    intro i inside
    obtain ⟨outside, way⟩ := mappable i inside
    refine ⟨outside, ?_⟩
    rw [found.cr3]
    exact later.edits_plain family.active family.active found outside way
  have more := (later.edits family.active found).mapSeries_edits again _ _ mapped
  rw [found.cr3] at more
  exact ⟨f, rest, supply, found.trans more⟩

end Search

end Neutrino.Virtual
