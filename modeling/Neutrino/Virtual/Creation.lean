import Neutrino.Virtual.HeapSearch

namespace Neutrino.Virtual

open Library

/-- The PML4 that `NewPageTable` makes in the frame `f` from that of the active space. -/
def newRow (active : Index → W64) (f : Frame) : Index → W64 := fun i =>
  if i = recurseActive then pageCreate (frameAddress f) pageKernelWrite
  else if 256 ≤ i.toNat then active i
  else 0#64

def Core.adopt (c : Core) (f : Frame) : Core :=
  c.withMem (Function.update c.mem f (newRow (c.mem c.cr3) f))

section Addresses

variable {f : Frame}

theorem memAddress_slot (small : f.toNat < 2 ^ 27) :
    getPl4Index (getMemAddress (frameAddress f)) = 256#9 := by
  have path := @indices_window memvOffset f (by decide) (by decide) small
  rw [← slotOf_pageNumber]
  exact (List.cons.inj path).1

theorem memAddress_canonical (small : f.toNat < 2 ^ 27) :
    canonical (pageNumber (getMemAddress (frameAddress f))) = true :=
  canonical_window (by decide) (by decide) small

theorem pageAt_zero (a : W64) : pageAt a 0 = a := by simp [pageAt]

theorem blockAt_eq (base : W64) {i : Nat} (small : i < 2 ^ 20) : blockAt base i = pageAt base i := by
  have offset : (BitVec.ofNat 32 i * 0x1000#32).setWidth 64 = BitVec.ofNat 64 (i * pageSize) := by
    apply BitVec.eq_of_toNat_eq
    simp only [BitVec.toNat_setWidth, BitVec.toNat_mul, BitVec.toNat_ofNat, pageSize]
    omega
  rw [blockAt, pageAt, offset]

theorem blockAt_zero (a : W64) : blockAt a 0 = a := by rw [blockAt_eq a (by decide), pageAt_zero]

theorem activeRecurseLink_window : vmmGetActiveRecurseLink = window recurseActive [] :=
  getRecursiveAddress_zero _ _ _ _

end Addresses

section Copies

variable {m : Machine} {f k : Frame} {dest source : W64}

/-- What the loop over `words` has done when entries 256 + `words` of `k` are copied to `f`. -/
def copied (mem : Mem) (k f : Frame) (words : List Nat) : Mem := fun h j =>
  if h = f ∧ j.toNat ∈ words.map (256 + ·) then mem k j else mem h j

theorem copied_nil (mem : Mem) : copied mem k f [] = mem := by
  funext h j
  simp [copied]

theorem copied_cons (mem : Mem) (apart : k ≠ f) {i : Nat} (small : i < 256) (words : List Nat) :
    copied (mem.write f (BitVec.ofNat 9 (256 + i)) (mem k (BitVec.ofNat 9 (256 + i)))) k f words =
      copied mem k f (i :: words) := by
  funext h j
  have index : j = BitVec.ofNat 9 (256 + i) ↔ j.toNat = 256 + i := by
    rw [← BitVec.toNat_inj, BitVec.toNat_ofNat]
    omega
  have row : ∀ j, mem.write f (BitVec.ofNat 9 (256 + i)) (mem k (BitVec.ofNat 9 (256 + i))) k j = mem k j :=
    fun j => write_of_ne fun both => apart both.1
  simp only [copied, row, write_apply, List.map_cons, List.mem_cons]
  by_cases table : h = f
  · by_cases here : j.toNat = 256 + i
    · have same := index.mpr here
      simp [table, here, ← same]
    · simp [table, here, index]
  · simp [table]

theorem copy_yields (apart : k ≠ f) (words : List Nat) (small : ∀ i ∈ words, i < 256)
    (reaches : ∀ mem, (∀ h, h ≠ f → mem h = m.core.mem h) →
      Reaches (m.core.withMem mem) dest f ∧ Reaches (m.core.withMem mem) source k) :
    Yields m (words.forM fun i => do
        let entry := BitVec.ofNat 64 (256 + i)
        store (entryAddress dest entry) (← load (entryAddress source entry)))
      fun _ m' => m'.core = m.core.withMem (copied m.core.mem k f words) := by
  induction words generalizing m with
  | nil => exact ⟨(), m, rfl, by rw [copied_nil]; rfl⟩
  | cons i words ih =>
    have bound := small i List.mem_cons_self
    have here := reaches m.core.mem fun _ _ => rfl
    have read := load_entry (m := m) here.2 (BitVec.ofNat 9 (256 + i))
    have written := store_entry (m := m.used (pageNumber source) k) here.1 (BitVec.ofNat 9 (256 + i))
      (m.core.mem k (BitVec.ofNat 9 (256 + i)))
    rw [← ofNat_index (by omega)] at read written
    have body : (do
        let entry := BitVec.ofNat 64 (256 + i)
        store (entryAddress dest entry) (← load (entryAddress source entry)) : VmmM Unit) m =
        some ((), ((m.used (pageNumber source) k).used (pageNumber dest) f).withCore (m.core.withMem
          (m.core.mem.write f (BitVec.ofNat 9 (256 + i)) (m.core.mem k (BitVec.ofNat 9 (256 + i)))))) := by
      simp only [Bind.bind, StateT.bind, read, Option.bind, written]
      rfl
    refine .after body ?_
    refine Yields.mono (ih (fun j member => small j (List.mem_cons_of_mem i member)) ?_) ?_
    · intro mem same
      refine reaches mem fun h other => ?_
      rw [same h other]
      exact Function.update_of_ne other _ _
    · rintro ⟨⟩ m' core
      rw [core, ← copied_cons m.core.mem apart bound]
      rfl

theorem copied_row (mem : Mem) (apart : k ≠ f) :
    (copied (Function.update mem f fun _ => 0#64) k f (List.range 256)).write f recurseActive
      (pageCreate (frameAddress f) pageKernelWrite) = Function.update mem f (newRow (mem k) f) := by
  funext h j
  have bound := j.isLt
  have upper : j.toNat ∈ (List.range 256).map (256 + ·) ↔ 256 ≤ j.toNat := by
    simp only [List.mem_map, List.mem_range]
    refine ⟨by omega, fun high => ⟨j.toNat - 256, by omega, by omega⟩⟩
  rw [write_apply]
  by_cases table : h = f
  · subst table
    by_cases self : j = recurseActive
    · simp [newRow, self]
    · by_cases high : 256 ≤ j.toNat
      · simp [newRow, self, copied, upper, high, Function.update_of_ne apart]
      · simp [newRow, self, copied, upper, high]
  · simp [table, copied]

end Copies

section Adoption

variable {c : Core} {roots ram : Set Frame} {mirror f r g : Frame} {xs : List Index}

theorem adopt_row (other : r ≠ f) : (c.adopt f).mem r = c.mem r := Function.update_of_ne other _ _

theorem newRow_table {active : Index → W64} {j : Index}
    (here : branches 3 j (newRow active f j) = .table g) : 256 ≤ j.toNat ∧ branches 3 j (active j) = .table g := by
  let mem : Mem := fun _ => newRow active f
  have found : branches 3 j (mem f j) = .table g := here
  obtain ⟨links, -, -, outside⟩ := branches_table found
  have self : j ≠ recurseActive := fun same => outside ⟨rfl, same⟩
  by_cases upper : 256 ≤ j.toNat
  · rw [newRow, if_neg self, if_pos upper] at here
    exact ⟨upper, here⟩
  · have present : isPresent (newRow active f j) = true := links.present
    rw [newRow, if_neg self, if_neg upper, isPresent_zero] at present
    cases present

theorem adopt_follow (fresh : ¬ IsTable c.mem r f) :
    follow branches (c.adopt f).mem 3 r xs = some g ↔ follow branches c.mem 3 r xs = some g := by
  apply follow_row
  rintro h table
  apply adopt_row
  rintro rfl
  exact fresh table

variable (family : Family c roots ram mirror)
include family

theorem Family.adopt_below (fresh : ∀ r ∈ roots, ¬ IsTable c.mem r f) {j : Index}
    (path : follow branches (c.adopt f).mem 3 f (j :: xs) = some g) :
    256 ≤ j.toNat ∧ follow branches c.mem 3 c.cr3 (j :: xs) = some g := by
  obtain ⟨h, here, rest⟩ := follow_cons_some path
  have row : (c.adopt f).mem f = newRow (c.mem c.cr3) f := Function.update_self _ _ _
  rw [row] at here
  obtain ⟨upper, source⟩ := newRow_table here
  refine ⟨upper, ?_⟩
  rw [follow_cons source]
  refine follow_of_edits (fun ys i k l reached linked => ?_) rest
  have table : IsTable c.mem c.cr3 k := ⟨j :: ys, by rw [follow_cons source, reached]⟩
  have other : k ≠ f := by
    rintro rfl
    exact fresh c.cr3 family.active table
  rw [adopt_row other] at linked
  exact linked

theorem Family.adopt (inside : f ∈ ram) (fresh : ∀ r ∈ roots, ¬ IsTable c.mem r f) (unused : f ∉ c.supply) :
    Family (c.adopt f) (insert f roots) ram mirror where
  initialized := family.initialized
  active := .inr family.active
  inside := Set.insert_subset inside family.inside
  selves r member := by
    rcases member with rfl | member
    · refine links_pageCreate pageKernelWrite ?_
      have row : (c.adopt r).mem r = newRow (c.mem c.cr3) r := Function.update_self _ _ _
      rw [row, newRow, if_pos rfl]
    · refine (family.selves r member).of_row (adopt_row ?_)
      rintro rfl
      exact fresh r member ⟨[], rfl⟩
  perm := by
    refine family.perm.of_row (adopt_row ?_)
    rintro rfl
    exact fresh c.cr3 family.active ⟨[], rfl⟩
  mirrored h member := by
    refine (family.mirrored h member).of_row (adopt_row ?_)
    rintro rfl
    exact fresh c.cr3 family.active ⟨_, family.mirror_place⟩
  separated := by
    refine family.separated.adopt (fun r member xs g path => (adopt_follow (fresh r member)).mp path) ?_ ?_
    · exact fun r member xs path => fresh r member ⟨xs, path⟩
    · intro j ys g path
      obtain ⟨upper, source⟩ := family.adopt_below fresh path
      refine ⟨fun lower => ?_, c.cr3, family.active, source⟩
      have low := lower j rfl
      omega
  nodup := family.nodup
  stocked h member := by
    have ⟨shown, unused'⟩ := family.stocked h member
    refine ⟨shown, ?_⟩
    rintro r (rfl | root) ⟨xs, path⟩
    · cases xs with
      | nil =>
        cases path
        exact unused member
      | cons j ys => exact unused' c.cr3 family.active ⟨_, (family.adopt_below fresh path).2⟩
    · exact unused' r root ⟨xs, (adopt_follow (fresh r root)).mp path⟩

theorem Family.adopt_tidy (fresh : ∀ r ∈ roots, ¬ IsTable c.mem r f) (tidy : Tidy c) : Tidy (c.adopt f) := by
  intro xs g i path high head present
  have before := (adopt_follow (fresh c.cr3 family.active)).mp path
  have other : g ≠ f := by
    rintro rfl
    exact fresh c.cr3 family.active ⟨xs, before⟩
  rw [adopt_row other] at present ⊢
  exact tidy xs g i before high head present

theorem Family.keep {roots' : Set Frame} (fewer : roots' ⊆ roots) (active : c.cr3 ∈ roots') (freed : List W64) :
    Family { c with freed := freed } roots' ram mirror where
  initialized := family.initialized
  active := active
  inside := fewer.trans family.inside
  selves r member := family.selves r (fewer member)
  perm := family.perm
  mirrored := family.mirrored
  separated := family.separated.mono fewer fun _ _ _ _ path => path
  nodup := family.nodup
  stocked f member := ⟨(family.stocked f member).1, fun r root => (family.stocked f member).2 r (fewer root)⟩

end Adoption

section Calls

variable {m m' : Machine} {roots ram : Set Frame} {mirror f : Frame} {address : W64} {rest : List Frame}

theorem reaches_apart {c : Core} {v : W64} (outside : getPl4Index v ≠ recurseActive)
    (apart : ¬ IsTable c.mem c.cr3 f) (reaches : Reaches c v f) {mem : Mem}
    (same : ∀ h, h ≠ f → mem h = c.mem h) : Reaches (c.withMem mem) v f := by
  obtain ⟨entries, found⟩ := reaches.walk
  refine ⟨reaches.aligned, entries, ?_⟩
  rw [← found]
  apply walk_congr
  · rw [slotOf_pageNumber]
    exact outside
  · intro _
    apply lookup_row
    · rintro h table
      apply same
      rintro rfl
      exact apart table
    · rfl

theorem reaches_link {c : Core} (self : Links c.mem c.cr3 recurseActive c.cr3) :
    Reaches c vmmGetActiveRecurseLink c.cr3 := by
  rw [activeRecurseLink_window]
  exact reaches_window ⟨.inl rfl, self, self⟩ rfl

/-- The part of `NewPageTable` that fills the new PML4. -/
def fillPageTable (p : W64) : VmmM W64 := do
  memoryClear p (pageSize / 8)
  (List.range 256).forM fun k => do
    let entry := BitVec.ofNat 64 (256 + k)
    store (entryAddress p entry) (← load (entryAddress vmmGetActiveRecurseLink entry))
  store (entryAddress p (recurseActive.setWidth 64)) (pageSelf p)
  return getRmemAddress p

theorem newPageTable_eq (pageTable : W64) : newPageTable pageTable = (do
    let physAddr ← pmmAllocSeries 1
    vmmMapPage pageTable physAddr (getMemAddress physAddr) pageKernelWrite
    fillPageTable (getMemAddress physAddr)) := by
  have one : vmmAllocateMemory pageTable 1 pageKernelWrite = (do
      let physAddr ← pmmAllocSeries 1
      vmmMapPage pageTable physAddr (getMemAddress physAddr) pageKernelWrite
      return getMemAddress physAddr) := by
    simp [vmmAllocateMemory, List.range_succ, blockAt_zero]
  have split : newPageTable pageTable = vmmAllocateMemory pageTable 1 pageKernelWrite >>= fillPageTable := rfl
  simp [split, one]

theorem fillPageTable_yields (self : Links m.core.mem m.core.cr3 recurseActive m.core.cr3)
    (apart : ¬ IsTable m.core.mem m.core.cr3 f) (small : f.toNat < 2 ^ 27)
    (reaches : Reaches m.core (getMemAddress (frameAddress f)) f) :
    Yields m (fillPageTable (getMemAddress (frameAddress f)))
      fun address m' => address = frameAddress f ∧ m'.core = m.core.adopt f := by
  have other : m.core.cr3 ≠ f := by
    intro same
    exact apart ⟨[], by rw [same]; rfl⟩
  have outside : getPl4Index (getMemAddress (frameAddress f)) ≠ recurseActive := by
    rw [memAddress_slot small]
    decide
  have page : ∀ mem, (∀ h, h ≠ f → mem h = m.core.mem h) →
      Reaches (m.core.withMem mem) (getMemAddress (frameAddress f)) f :=
    fun mem same => reaches_apart outside apart reaches same
  have link : ∀ mem, (∀ h, h ≠ f → mem h = m.core.mem h) →
      Reaches (m.core.withMem mem) vmmGetActiveRecurseLink m.core.cr3 :=
    fun mem same => reaches_link (self.of_row (same _ other))
  have quiet : throughGate (pageNumber (getMemAddress (frameAddress f))) = false := by
    have slot : memvOffset.extractLsb' 39 9 = 256#9 := by decide
    rw [throughGate, getMemAddress, indices_window (by decide) (by decide) small, slot]
    rfl
  refine .bind (clear_yields (List.range 512) (fun i member => List.mem_range.mp member) quiet page) ?_
  rintro ⟨⟩ m1 ⟨core, -⟩
  rw [cleared_range] at core
  have apart1 : ∀ h, h ≠ f → m1.core.mem h = m.core.mem h := by
    intro h ne
    rw [core]
    exact Function.update_of_ne ne _ _
  refine .bind (copy_yields other (List.range 256) (fun i member => List.mem_range.mp member)
    fun mem same => ?_) ?_
  · have before : ∀ h, h ≠ f → mem h = m.core.mem h := fun h ne => (same h ne).trans (apart1 h ne)
    rw [core]
    exact ⟨page mem before, link mem before⟩
  · rintro ⟨⟩ m2 core2
    have shown : Reaches m2.core (getMemAddress (frameAddress f)) f := by
      rw [core2, core]
      refine page _ fun h ne => ?_
      funext j
      simp [copied, ne, Core.withMem]
    refine .after (store_entry shown recurseActive _) (.pure ⟨?_, ?_⟩)
    · rw [getRmemAddress_getMemAddress]
    · rw [pageSelf, getRmemAddress_getMemAddress, core2, core]
      exact congrArg m.core.withMem (copied_row m.core.mem other)

theorem Tidy.memAddress_way (tidy : Tidy m.core) (small : f.toNat < 2 ^ 27) :
    getPl4Index (getMemAddress (frameAddress f)) ≠ recurseActive ∧
      plain m.core.mem m.core.cr3 (directories (getMemAddress (frameAddress f))) = true := by
  have outside : getPl4Index (getMemAddress (frameAddress f)) ≠ recurseActive ∧
      getPl4Index (getMemAddress (frameAddress f)) ≠ permSlot := by
    rw [memAddress_slot small]
    decide
  exact ⟨outside.1, tidy.plain_way outside⟩

variable (family : Family m.core roots ram mirror) (tidy : Tidy m.core)
include family tidy

theorem Family.fill_mapped (supply : m.core.supply = f :: rest)
    (mapped : vmmMapPage (frameAddress m.core.cr3) (frameAddress f) (getMemAddress (frameAddress f))
      pageKernelWrite (m.withCore (m.core.withSupply rest)) = some ((), m')) :
    mapPage m.core.cr3 (frameAddress f) (getMemAddress (frameAddress f)) pageKernelWrite
        (m.core.withSupply rest) = some ((), m'.core) ∧
      Yields m' (fillPageTable (getMemAddress (frameAddress f)))
        fun address m'' => address = frameAddress f ∧ m''.core = m'.core.adopt f := by
  obtain ⟨later, unused⟩ := family.taken supply
  have small := (family.mirrored f (family.stocked f (first_mem supply)).1).small
  obtain ⟨outside, way⟩ := tidy.memAddress_way small
  have written := Family.vmmMapPage_active (m := m.withCore (m.core.withSupply rest)) later (.inr rfl)
    outside way mapped
  have edit := later.editable family.active outside way
  have edits := mapPage_edits edit written
  obtain ⟨above, shown⟩ := mapPage_walk edit (memAddress_canonical small) written
  have root : m'.core.cr3 = m.core.cr3 := edits.cr3
  have self := (later.edits family.active edits).selves m.core.cr3 family.active
  have fresh := family.taken_fresh supply edits m.core.cr3 family.active
  have reaches : Reaches m'.core (getMemAddress (frameAddress f)) f := by
    refine ⟨window_aligned (by decide) (by decide) small, above ++ [pageCreate (frameAddress f) pageKernelWrite], ?_⟩
    rw [root]
    rw [frameOf_frameAddress] at shown
    exact shown
  rw [← root] at self fresh
  exact ⟨written, fillPageTable_yields self fresh small reaches⟩

theorem Family.newPageTable_spec (taken : newPageTable (frameAddress m.core.cr3) m = some (address, m')) :
    ∃ f rest c, m.core.supply = f :: rest ∧
      mapPage m.core.cr3 (frameAddress f) (getMemAddress (frameAddress f)) pageKernelWrite
        (m.core.withSupply rest) = some ((), c) ∧
      address = frameAddress f ∧ m'.core = c.adopt f := by
  rw [newPageTable_eq] at taken
  obtain ⟨physAddr, m1, first, taken⟩ := bind_some taken
  obtain ⟨⟨⟩, m2, mapped, filled⟩ := bind_some taken
  obtain ⟨f, rest, supply, rfl, rfl⟩ := pmmAlloc_some first
  obtain ⟨written, fill⟩ := family.fill_mapped tidy supply mapped
  obtain ⟨rfl, core⟩ := fill.outcome filled
  exact ⟨f, rest, m2.core, supply, written, rfl, core⟩

theorem Family.newPage_editable (supply : m.core.supply = f :: rest) :
    Editable (m.core.withSupply rest) m.core.cr3 (getMemAddress (frameAddress f)) := by
  have small := (family.mirrored f (family.stocked f (first_mem supply)).1).small
  obtain ⟨outside, way⟩ := tidy.memAddress_way small
  exact (family.taken supply).1.editable family.active outside way

theorem Family.newPageTable_total (supply : m.core.supply = f :: rest) (enough : 3 ≤ rest.length) :
    ∃ m', newPageTable (frameAddress m.core.cr3) m = some (frameAddress f, m') := by
  obtain ⟨later, unused⟩ := family.taken supply
  have small := (family.mirrored f (family.stocked f (first_mem supply)).1).small
  obtain ⟨outside, way⟩ := tidy.memAddress_way small
  obtain ⟨m1, mapped⟩ := Family.vmmMapPage_total (m := m.withCore (m.core.withSupply rest)) later (.inr rfl)
    outside way (frameAddress f) pageKernelWrite enough
  obtain ⟨-, fill⟩ := family.fill_mapped tidy supply mapped
  have made : Yields m (newPageTable (frameAddress m.core.cr3)) fun address _ => address = frameAddress f := by
    rw [newPageTable_eq]
    refine .after (pmmAlloc_cons supply) (.after mapped (fill.mono ?_))
    exact fun _ _ done => done.1
  obtain ⟨address, m2, taken, rfl⟩ := made
  exact ⟨m2, taken⟩

theorem Family.newPageTable_family (taken : newPageTable (frameAddress m.core.cr3) m = some (address, m')) :
    m'.core.cr3 = m.core.cr3 ∧ Family m'.core (insert (frameOf address) roots) ram mirror ∧ Tidy m'.core := by
  obtain ⟨f, rest, c, supply, written, rfl, core⟩ := family.newPageTable_spec tidy taken
  have edits := mapPage_edits (family.newPage_editable tidy supply) written
  obtain ⟨later, unused⟩ := family.taken supply
  have kept := later.edits family.active edits
  have fresh := family.taken_fresh supply edits
  have spare : f ∉ c.supply := fun member => unused (edits.supply member)
  rw [core, frameOf_frameAddress]
  refine ⟨edits.cr3, kept.adopt (family.stocked f (first_mem supply)).1 fresh spare, ?_⟩
  exact kept.adopt_tidy fresh (later.edits_tidy family.active edits tidy)

end Calls

section Destruction

variable {m m' : Machine} {roots ram : Set Frame} {mirror : Frame}

theorem vmmVirtToPhys_ensures (table virt : W64) :
    Ensures m (vmmVirtToPhys table virt) fun _ m' => m'.core = m.core := by
  have entry : ∀ {n : Machine} (table i : W64), n.core = m.core →
      Ensures n (vmmGetEntry table i) fun _ m' => m'.core = m.core :=
    fun table i same => (vmmGetEntry_ensures table i).mono fun _ _ done => done.1.trans same
  unfold vmmVirtToPhys
  have cr3 : Ensures m readCr3 fun _ m' => m'.core = m.core := .pure rfl
  refine .bind cr3 ?_
  intro _ m1 core
  split
  · refine .bind (load_ensures _) ?_
    rintro _ m2 ⟨core', -⟩
    exact .pure (core'.trans core)
  · refine .bind (entry _ _ core) ?_
    intro pdpt m2 core
    refine .bind (entry _ _ core) ?_
    intro pdir m3 core
    refine .bind (entry _ _ core) ?_
    intro ptab m4 core
    refine .bind (load_ensures _) ?_
    rintro _ m5 ⟨core', -⟩
    exact .pure (core'.trans core)

theorem pmmFreeSeries_eq (addr : W64) (size : Nat) : pmmFreeSeries addr size m = some ((), m.withCore
    { m.core with freed := m.core.freed ++ (List.range size).map (pageAt addr) }) := by
  have loop : ∀ (blocks : List Nat) (n : Machine),
      (blocks.forM fun i => pmmFree (addr + BitVec.ofNat 64 (i * pageSize))) n = some ((), n.withCore
        { n.core with freed := n.core.freed ++ blocks.map (pageAt addr) }) := by
    intro blocks
    induction blocks with
    | nil =>
      intro n
      rw [List.map_nil, List.append_nil]
      rfl
    | cons i blocks ih =>
      intro n
      rw [List.map_cons, List.append_cons]
      exact ih _
  exact loop (List.range size) m

theorem vmmFreeMemory_one (table addr : W64) :
    vmmFreeMemory table addr 1 = (do
      let physAddr ← vmmVirtToPhys table addr
      discard (vmmUnmapPage table addr)
      pmmFreeSeries physAddr 1
      return true) := by
  simp [vmmFreeMemory, List.range_succ, blockAt_zero]

theorem Family.destroyPageTable_edits {f : Frame} (family : Family m.core roots ram mirror) (tidy : Tidy m.core)
    (small : f.toNat < 2 ^ 27) :
    Ensures m (destroyPageTable (frameAddress m.core.cr3) (frameAddress f)) fun _ m' => ∃ c freed,
      Edits m.core.cr3 m.core c ∧ m'.core = { c with freed := freed } := by
  have switched : Ensures m (writeCr3 (frameAddress m.core.cr3)) fun _ m' => m'.core = m.core := by
    rintro ⟨⟩ m1 ⟨⟩
    simp [frameOf_frameAddress]
  refine .bind switched ?_
  rintro ⟨⟩ m1 core
  rw [vmmFreeMemory_one]
  refine .discard (.bind (vmmVirtToPhys_ensures _ _) ?_)
  intro physAddr m2 core'
  replace core := core'.trans core
  rw [← core] at family tidy ⊢
  obtain ⟨outside, way⟩ := tidy.memAddress_way small
  refine .bind (.discard (family.vmmUnmapPage_active (.inr rfl) outside way)) ?_
  intro _ m3 edits a m4 done
  obtain ⟨⟨⟩, m5, freed, rest⟩ := bind_some done
  rw [pmmFreeSeries_eq] at freed
  cases freed
  cases rest
  exact ⟨m3.core, _, edits, rfl⟩

end Destruction

end Neutrino.Virtual
