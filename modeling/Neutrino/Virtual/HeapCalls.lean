import Neutrino.Virtual.HeapPages

namespace Neutrino.Virtual

open Library

/-- What a call does to the spaces, if it edits the tables of the active one and changes the
    translations of the given pages only. -/
structure Touches (roots : Set Frame) (pages : PageNumber → Prop) (c c' : Core) : Prop where
  edits : Edits c.cr3 c c'
  bounded : ∀ r ∈ roots, Bounded c.mem r → Bounded c'.mem r
  others : ∀ r ∈ roots, ∀ q, slotOf q ≠ recurseActive → ¬ pages q → walk c'.mem r q = walk c.mem r q

section Pages

variable {m : Machine} {c c' c'' : Core} {roots ram : Set Frame} {mirror : Frame} {v physAddr : W64}
  {prop : PageProperties} {pages pages' : PageNumber → Prop}

theorem Touches.refl : Touches roots pages c c := ⟨.refl, fun _ _ bounded => bounded, fun _ _ _ _ _ => rfl⟩

theorem Touches.trans (first : Touches roots pages c c') (second : Touches roots pages' c' c'') :
    Touches roots (fun q => pages q ∨ pages' q) c c'' := by
  have edits := second.edits
  rw [first.edits.cr3] at edits
  refine ⟨first.edits.trans edits, fun r root bounded => ?_, fun r root q outside other => ?_⟩
  · exact second.bounded r root (first.bounded r root bounded)
  · rw [not_or] at other
    rw [second.others r root q outside other.2, first.others r root q outside other.1]

theorem Touches.mono (touches : Touches roots pages c c') (more : ∀ q, pages q → pages' q) :
    Touches roots pages' c c' :=
  ⟨touches.edits, touches.bounded, fun r root q outside other =>
    touches.others r root q outside fun page => other (more q page)⟩

theorem Family.supply_small (family : Family c roots ram mirror) : ∀ f ∈ c.supply, f.toNat < 2 ^ 27 :=
  fun f member => (family.mirrored f (family.stocked f member).1).small

theorem Family.grows_touches (family : Family c roots ram mirror) (grows : Grows c.cr3 c c') :
    Touches roots (fun _ => False) c c' := by
  have target := family.space family.active
  refine ⟨grows.edits, fun r root bounded => ?_, fun r root q outside _ => ?_⟩
  · exact bounded.grows target (family.space root) family.supply_small grows
  · exact walk_congr outside fun _ =>
      grows.lookup_eq target (family.space root) (family.aligned family.active root) (indices_length q)

variable (family : Family m.core roots ram mirror) (room : Room m.core m.core.cr3 v)
include family room

theorem Family.vmmMapPage_touches (low : (getPhysicalAddress (pageCreate physAddr prop)).toNat < 2 ^ 47) :
    Ensures m (vmmMapPage 0#64 physAddr v prop) fun _ m' => Touches roots (· = pageNumber v) m.core m'.core ∧
      ∃ entries, walk m'.core.mem m.core.cr3 (pageNumber v) = some ⟨entries, frameOf physAddr⟩ := by
  rintro ⟨⟩ m' taken
  have edit := family.editable family.active room.outside room.way
  have mapped := family.vmmMapPage_active (.inl rfl) room.outside room.way taken
  obtain ⟨above, found⟩ := mapPage_walk edit room.inside mapped
  refine ⟨⟨mapPage_edits edit mapped, fun r root bounded => ?_, fun r root q outside other => ?_⟩, _, found⟩
  · exact mapPage_bounded edit (family.space root) (family.aligned family.active root) bounded family.supply_small low
      mapped
  · exact mapPage_other edit room.inside (family.space root) (family.aligned family.active root) mapped other outside

theorem Family.vmmUnmapPage_done {m' : Machine} {res : Bool} (taken : vmmUnmapPage 0#64 v m = some (res, m')) :
    Editable m.core m.core.cr3 v ∧ removePage m.core.cr3 v m.core = some ((), m'.core) := by
  have target : m.core.target 0#64 = m.core.cr3 := if_pos rfl
  have open' : m.core.shut m.core.cr3 = m.core := if_pos rfl
  have ready := family.ready family.active
  have edit := family.editable family.active room.outside room.way
  rw [← target] at ready edit
  obtain ⟨⟨⟩, done, -⟩ := (vmmUnmapPage_simulates (by decide) ready edit).source taken
  replace done : removePage (m.core.target 0#64) v (m.core.shut (m.core.target 0#64)) = some ((), m'.core) := done
  rw [target] at edit
  rw [target, open'] at done
  exact ⟨edit, done⟩

theorem Family.vmmUnmapPage_touches (bounded : Bounded m.core.mem m.core.cr3) :
    Ensures m (vmmUnmapPage 0#64 v) fun _ m' => Touches roots (· = pageNumber v) m.core m'.core := by
  intro res m' taken
  obtain ⟨edit, done⟩ := family.vmmUnmapPage_done room taken
  obtain ⟨-, -, -, -, -, -, -, -, fewer⟩ := removePage_spec edit done
  refine ⟨removePage_edits edit done, fun r root bounded => bounded.fewer fewer, fun r root q outside other => ?_⟩
  exact removePage_other edit bounded family.supply_small room.inside (family.space root)
    (family.aligned family.active root) done other outside

end Pages

section Loops

variable {m : Machine} {c c1 c2 : Core} {roots ram : Set Frame} {mirror : Frame} {prop : PageProperties} {k n : Nat}
  {virt phys : Nat → W64} {pages : PageNumber → Prop}

theorem Touches.next (before : Touches roots (fun q => ∃ i < k, q = pageNumber (virt i)) c c1)
    (next : Touches roots (· = pageNumber (virt k)) c1 c2) :
    Touches roots (fun q => ∃ i < k + 1, q = pageNumber (virt i)) c c2 := by
  refine (before.trans next).mono ?_
  rintro q (⟨i, earlier, rfl⟩ | rfl)
  · exact ⟨i, by omega, rfl⟩
  · exact ⟨k, Nat.lt_succ_self k, rfl⟩

theorem Touches.ready (touches : Touches roots pages c c1) (family : Family c roots ram mirror)
    (rooms : ∀ i < n, Room c c.cr3 (virt i)) : Family c1 roots ram mirror ∧ ∀ i < n, Room c1 c1.cr3 (virt i) := by
  refine ⟨family.edits family.active touches.edits, fun i below => ?_⟩
  rw [touches.edits.cr3]
  exact (rooms i below).edits family family.active family.active touches.edits

variable (family : Family m.core roots ram mirror) (rooms : ∀ i < n, Room m.core m.core.cr3 (virt i))
include family rooms

theorem Family.unmapPages_touches (bounded : Bounded m.core.mem m.core.cr3) :
    Ensures m ((List.range n).forM fun i => discard (vmmUnmapPage 0#64 (virt i))) fun _ m' =>
      Touches roots (fun q => ∃ i < n, q = pageNumber (virt i)) m.core m'.core := by
  refine Ensures.forM_range (fun k (m' : Machine) =>
    Touches roots (fun q => ∃ i < k, q = pageNumber (virt i)) m.core m'.core) .refl ?_
  intro k below m1 before
  obtain ⟨family1, rooms1⟩ := before.ready family rooms
  have bounded1 := before.bounded _ family.active bounded
  rw [← before.edits.cr3] at bounded1
  refine .discard ((family1.vmmUnmapPage_touches (rooms1 k below) bounded1).mono ?_)
  intro _ m2 next
  exact before.next next

theorem Family.mapPages_touches
    (low : ∀ i < n, (getPhysicalAddress (pageCreate (phys i) prop)).toNat < 2 ^ 47)
    (distinct : ∀ i < n, ∀ j < n, pageNumber (virt i) = pageNumber (virt j) → i = j) :
    Ensures m ((List.range n).forM fun i => vmmMapPage 0#64 (phys i) (virt i) prop) fun _ m' =>
      Touches roots (fun q => ∃ i < n, q = pageNumber (virt i)) m.core m'.core ∧
      ∀ i < n, ∃ entries, walk m'.core.mem m.core.cr3 (pageNumber (virt i)) = some ⟨entries, frameOf (phys i)⟩ := by
  refine Ensures.forM_range (fun k (m' : Machine) =>
    Touches roots (fun q => ∃ i < k, q = pageNumber (virt i)) m.core m'.core ∧ ∀ i < k, ∃ entries,
      walk m'.core.mem m.core.cr3 (pageNumber (virt i)) = some ⟨entries, frameOf (phys i)⟩) ⟨.refl, nofun⟩ ?_
  rintro k below m1 ⟨before, mapped⟩
  obtain ⟨family1, rooms1⟩ := before.ready family rooms
  refine (family1.vmmMapPage_touches (rooms1 k below) (low k below)).mono ?_
  rintro _ m2 ⟨next, found⟩
  refine ⟨before.next next, fun i upto => ?_⟩
  rcases Nat.lt_succ_iff_lt_or_eq.mp upto with earlier | rfl
  · have outside : slotOf (pageNumber (virt i)) ≠ recurseActive := by
      rw [slotOf_pageNumber]
      exact (rooms i (by omega)).outside
    rw [next.others _ family.active _ outside fun same =>
      absurd (distinct i (by omega) k below same) (Nat.ne_of_lt earlier)]
    exact mapped i earlier
  · rw [before.edits.cr3] at found
    exact found

end Loops

/-- The slot that the allocations of a kind are made in. -/
def heapSlot (user : Bool) : Index := getPl4Index (if user then userHeapOffset else heapOffset)

/-- What a heap allocation needs of the state it is made in: blocks whose offsets fit the `size_t` of
    the loop, room that begins in the first page table of the slot, and frames that the mirror of
    the physical memory shows. -/
structure HeapFits (c : Core) (blocks : Nat) (user : Bool) : Prop where
  some : 1 ≤ blocks
  small : blocks ≤ 2 ^ 20
  room : HeapRoom c (heapSlot user) blocks
  series : ∀ f ∈ c.supply.head?, f.toNat + blocks ≤ 2 ^ 27

section Allocation

variable {m : Machine} {roots ram : Set Frame} {mirror f : Frame} {rest : List Frame} {blocks : Nat} {user : Bool}

theorem heapSlot_inner (user : Bool) : heapSlot user ≠ recurseActive ∧ heapSlot user ≠ permSlot :=
  (heapSlot_base (heapBase_cases user)).inner.1

theorem mapBlocks_eq (small : blocks ≤ 2 ^ 20) (physAddr virtAddr : W64) (prop : PageProperties) :
    ((List.range blocks).forM fun i => vmmMapPage 0#64 (blockAt physAddr i) (blockAt virtAddr i) prop) =
      (List.range blocks).forM fun i => vmmMapPage 0#64 (pageAt physAddr i) (pageAt virtAddr i) prop := by
  apply forM_congr
  intro i member
  have below := List.mem_range.mp member
  rw [blockAt_eq _ (by omega), blockAt_eq _ (by omega)]

theorem unmapBlocks_eq (small : blocks ≤ 2 ^ 20) (addr : W64) :
    ((List.range blocks).forM fun i => discard (vmmUnmapPage 0#64 (blockAt addr i))) =
      (List.range blocks).forM fun i => discard (vmmUnmapPage 0#64 (pageAt addr i)) := by
  apply forM_congr
  intro i member
  have below := List.mem_range.mp member
  rw [blockAt_eq _ (by omega)]

theorem slotPage_room {c : Core} {slot : Index} {k : Nat} (tidy : Tidy c)
    (inner : slot ≠ recurseActive ∧ slot ≠ permSlot) (inside : k < 2 ^ 27) : Room c c.cr3 (slotPage slot k) := by
  have outside : getPl4Index (slotPage slot k) ≠ recurseActive ∧ getPl4Index (slotPage slot k) ≠ permSlot := by
    rw [getPl4Index_slotPage]
    exact inner
  exact ⟨canonical_slotPage inside, outside.1, tidy.plain_way outside⟩

theorem FreeRun.rooms {c : Core} {slot : Index} {va : W64} (run : FreeRun c slot blocks va) (tidy : Tidy c)
    (inner : slot ≠ recurseActive ∧ slot ≠ permSlot) : ∀ i < blocks, Room c c.cr3 (pageAt va i) := by
  obtain ⟨q, fits, rfl, -⟩ := run
  intro i below
  rw [pageAt_slotPage (by omega)]
  exact slotPage_room tidy inner (by omega)

theorem FreeRun.distinct {c : Core} {slot : Index} {va : W64} (run : FreeRun c slot blocks va) : ∀ i < blocks,
    ∀ j < blocks, pageNumber (pageAt va i) = pageNumber (pageAt va j) → i = j := by
  obtain ⟨q, fits, rfl, -⟩ := run
  intro i first j second same
  rw [pageAt_slotPage (by omega), pageAt_slotPage (by omega)] at same
  have := slotPage_injective (by omega) (by omega) same
  omega

theorem series_low (fits : f.toNat + blocks ≤ 2 ^ 27) (prop : PageProperties) {i : Nat} (below : i < blocks) :
    (getPhysicalAddress (pageCreate (pageAt (frameAddress f) i) prop)).toNat < 2 ^ 47 := by
  rw [pageAt_frameAddress fits below, getPhysicalAddress_pageCreate, frameAddress_toNat, run_frame_toNat fits below]
  omega

theorem Family.vmmAllocateHeap_ensures (family : Family m.core roots ram mirror) (tidy : Tidy m.core)
    (bounded : Bounded m.core.mem m.core.cr3) (fits : HeapFits m.core blocks user) :
    Ensures m (vmmAllocateHeap blocks user) fun va m' => ∃ f rest, m.core.supply = f :: rest ∧
      Touches roots (fun q => ∃ i < blocks, q = pageNumber (pageAt va i)) (m.core.withSupply rest) m'.core ∧
      FreeRun m.core (heapSlot user) blocks va ∧ ∀ i < blocks, ∃ entries,
        walk m'.core.mem m.core.cr3 (pageNumber (pageAt va i)) = some ⟨entries, f + BitVec.ofNat 40 i⟩ := by
  intro va m' taken
  obtain ⟨f, rest, m2, supply, searched, mapped⟩ := vmmAllocateHeap_some taken
  obtain ⟨family1, -⟩ := family.taken supply
  have series : f.toNat + blocks ≤ 2 ^ 27 := fits.series f (by rw [supply]; rfl)
  have searching := @Family.vmmFindFreeHeapSeries_simulates (m.withCore (m.core.withSupply rest)) _ _ _ _ _ family1
    tidy bounded (heapBase_cases user) fits.some fits.room ⟨true, user, true⟩
  obtain ⟨_, -, grows, run⟩ := searching.source searched
  have found := family1.grows_touches grows
  obtain ⟨family2, rooms⟩ := found.ready family1 (run.rooms tidy (heapSlot_inner user))
  rw [mapBlocks_eq fits.small] at mapped
  obtain ⟨touches, there⟩ := family2.mapPages_touches rooms (fun i below => series_low series _ below) run.distinct
    _ _ mapped
  refine ⟨f, rest, supply, (found.trans touches).mono (by simp), run, fun i below => ?_⟩
  obtain ⟨entries, shown⟩ := there i below
  rw [found.edits.cr3, pageAt_frameAddress series below, frameOf_frameAddress] at shown
  exact ⟨entries, shown⟩

theorem Family.vmmAllocateHeap_total (family : Family m.core roots ram mirror) (tidy : Tidy m.core)
    (bounded : Bounded m.core.mem m.core.cr3) (fits : HeapFits m.core blocks user)
    (enough : 3 * blocks + 4 ≤ m.core.supply.length) :
    ∃ va m', vmmAllocateHeap blocks user m = some (va, m') := by
  cases supply : m.core.supply with
  | nil =>
    rw [supply] at enough
    cases enough
  | cons f rest =>
    rw [supply, List.length_cons] at enough
    obtain ⟨family1, -⟩ := family.taken supply
    have searching := @Family.vmmFindFreeHeapSeries_simulates (m.withCore (m.core.withSupply rest)) _ _ _ _ _ family1
      tidy bounded (heapBase_cases user) fits.some fits.room ⟨true, user, true⟩
    obtain ⟨_, c2, descended, left⟩ := @descend_total (m.core.withSupply rest)
      [getPl4Index (if user then userHeapOffset else heapOffset), 0#9, 0#9] ⟨true, user, true⟩ m.core.cr3
      (by simp only [Core.withSupply, List.length_cons, List.length_nil]; omega)
    obtain ⟨va, m2, searched, core, grows, run⟩ := searching.yields descended
    have found := family1.grows_touches grows
    obtain ⟨family2, rooms⟩ := found.ready family1 (run.rooms tidy (heapSlot_inner user))
    have names : Names m2.core roots 0#64 m2.core.cr3 := ⟨by decide, rfl, family2.active⟩
    have plenty : 3 * blocks ≤ m2.core.supply.length := by
      rw [core]
      simp only [Core.withSupply, List.length_cons, List.length_nil] at left
      omega
    have yields : Yields m (vmmAllocateHeap blocks user) fun _ _ => True := by
      refine .after (pmmAlloc_cons supply) (.after searched ?_)
      rw [mapBlocks_eq fits.small]
      exact (family2.mapRun_yields names rooms run.distinct _ plenty).bind fun _ m3 _ => .pure trivial
    obtain ⟨va, m', taken, -⟩ := yields
    exact ⟨va, m', taken⟩

theorem Family.vmmFreeMemory_touches {addr : W64} (family : Family m.core roots ram mirror)
    (bounded : Bounded m.core.mem m.core.cr3) (small : blocks ≤ 2 ^ 20)
    (rooms : ∀ i < blocks, Room m.core m.core.cr3 (pageAt addr i)) :
    Ensures m (vmmFreeMemory 0#64 addr blocks) fun _ m' => ∃ c freed, m'.core = { c with freed := freed } ∧
      Touches roots (fun q => ∃ i < blocks, q = pageNumber (pageAt addr i)) m.core c := by
  rw [vmmFreeMemory, unmapBlocks_eq small]
  refine .bind (vmmVirtToPhys_ensures _ _) ?_
  intro physAddr m1 core
  rw [← core] at family bounded rooms ⊢
  refine .bind (family.unmapPages_touches rooms bounded) ?_
  intro _ m2 touches res m3 taken
  obtain ⟨⟨⟩, m4, freed, done⟩ := bind_some taken
  rw [pmmFreeSeries_eq] at freed
  cases freed
  cases done
  exact ⟨m2.core, _, rfl, touches⟩

end Allocation

end Neutrino.Virtual
