import Neutrino.Virtual.Rights

namespace Neutrino.Virtual

open Library

/-- An entry that holds the address of a table, with nothing but flags beside it. -/
structure Refers (mem : Mem) (g : Frame) (i : Index) (h : Frame) : Prop extends Links mem g i h where
  address : getPhysicalAddress (mem g i) = frameAddress h

/-- The page of `v` is mapped in the space `t` to the frame `f`, by way of three tables. -/
structure Mapped (mem : Mem) (t : Frame) (v : W64) (f g1 g2 g3 : Frame) : Prop where
  pdpt : Refers mem t (getPl4Index v) g1
  pdir : Refers mem g1 (getDptIndex v) g2
  ptab : Refers mem g2 (getDirIndex v) g3
  page : ∃ prop, mem g3 (getTabIndex v) = pageCreate (frameAddress f) prop

/-- The active space shows the PML4 of a space at its physical address, and its tables in the
    window at `MEM_OFFSET`. -/
structure TablesShown (c : Core) (table : W64) (g1 g2 g3 : Frame) : Prop where
  root : Reaches c table (frameOf table)
  pdpt : Reaches c (getMemAddress (frameAddress g1)) g1
  pdir : Reaches c (getMemAddress (frameAddress g2)) g2
  ptab : Reaches c (getMemAddress (frameAddress g3)) g3

def UpperClean : Mem → Frame → Prop := Upper fun h e => getPhysicalAddress e = frameAddress h

section Mappings

variable {m m' : Machine} {roots ram : Set Frame} {mirror t f : Frame} {table v : W64} {prop : PageProperties}

theorem vmmMapPage_mapped (family : Family m.core roots ram mirror) (names : Names m.core roots table t)
    (room : Room m.core t v) (other : getPl4Index v ≠ recurseOther) (upper : UpperClean m.core.mem t)
    (done : vmmMapPage table (frameAddress f) v prop m = some ((), m')) :
    (∃ g1 g2 g3, Mapped m'.core.mem t v f g1 g2 g3) ∧ UpperClean m'.core.mem t := by
  obtain ⟨aligned, rfl, member⟩ := names
  have ready := family.ready member
  have edit := family.editable member room.outside room.way
  have there := edit.shut ready.apart
  obtain ⟨⟨⟩, taken, -⟩ := (vmmMapPage_simulates (frameAddress f) prop aligned ready edit).source done
  have clean : UpperClean m'.core.mem (m.core.target table) :=
    mapPage_upper there (fun _ => getPhysicalAddress_pageCreate _ _) (shut_upper ready.apart upper) taken
  refine ⟨?_, clean⟩
  obtain ⟨pt, c1, first, written⟩ := mapPage_cases taken
  obtain ⟨grows, place⟩ := there.descend first
  have space := grows.space there.space there.space
  have path := (follow_leaf (i := getTabIndex v) (e := pageCreate (frameAddress f) prop) space.tree.aligned place
    rfl).mpr place
  have mem : m'.core.mem = c1.mem.write pt (getTabIndex v) (pageCreate (frameAddress f) prop) := by rw [written]; rfl
  rw [← mem] at path
  obtain ⟨g1, one, path1⟩ := follow_cons_some path
  obtain ⟨g2, two, path2⟩ := follow_cons_some path1
  obtain ⟨g3, three, last⟩ := follow_cons_some path2
  cases last
  have links1 := (branches_table one).1
  have links2 := (branches_table two).1
  have links3 := (branches_table three).1
  have root : follow branches m'.core.mem 3 (m.core.target table) [] = some (m.core.target table) := rfl
  have first1 := follow_snoc root one
  have first2 := follow_snoc first1 two
  refine ⟨g1, g2, pt, ⟨links1, ?_⟩, ⟨links2, ?_⟩, ⟨links3, ?_⟩, prop, ?_⟩
  · exact clean _ _ _ _ root (by decide) (fun _ => ⟨room.outside, other⟩) links1
  · exact clean _ _ _ _ first1 (by simp) nofun links2
  · exact clean _ _ _ _ first2 (by simp) nofun links3
  · rw [mem]
    exact write_self

end Mappings

section Translations

variable {m : Machine} {table v : W64} {t f g1 g2 g3 : Frame}

theorem vmmGetEntry_refers {g h : Frame} {i : Index} {pointer : W64} (reaches : Reaches m.core pointer g)
    (refers : Refers m.core.mem g i h) : Yields m (vmmGetEntry pointer (i.setWidth 64)) fun result m' =>
      result = getMemAddress (frameAddress h) ∧ m'.core = m.core := by
  refine .after (load_entry reaches i) ?_
  rw [if_pos refers.present]
  refine .after (load_entry (m := m.used (pageNumber pointer) g) reaches i) ?_
  refine .pure ⟨?_, rfl⟩
  show getMemAddress (getPhysicalAddress (m.core.mem g i)) = _
  rw [refers.address]

theorem load_page {pointer : W64} (reaches : Reaches m.core pointer g3) (mapped : Mapped m.core.mem t v f g1 g2 g3) :
    Yields m (do return getPhysicalAddress (← load (entryAddress pointer ((getTabIndex v).setWidth 64))) +
      getPageOffset v) fun result m' => result = frameAddress f + getPageOffset v ∧ m'.core = m.core := by
  obtain ⟨prop, entry⟩ := mapped.page
  refine .after (load_entry reaches _) (.pure ⟨?_, rfl⟩)
  rw [entry, getPhysicalAddress_pageCreate]

theorem virtToPhys_active (active : m.core.target table = m.core.cr3) (aligned : frameAddress (frameOf table) = table)
    (self : Links m.core.mem m.core.cr3 recurseActive m.core.cr3)
    (mapped : Mapped m.core.mem m.core.cr3 v f g1 g2 g3) : Yields m (vmmVirtToPhys table v) fun result m' =>
      result = frameAddress f + getPageOffset v ∧ m'.core = m.core := by
  have asked : readCr3 m = some (frameAddress m.core.cr3, m) := rfl
  have same : table = frameAddress m.core.cr3 ∨ table = 0#64 :=
    (or_congr_left eq_comm).mp ((active_iff aligned).mpr active)
  have reaches : Reaches m.core (getRecursiveAddress recurseActive (getPl4Index v) (getDptIndex v) (getDirIndex v) 0#64)
      g3 := by
    rw [getRecursiveAddress_zero]
    exact reaches_links (by decide) self mapped.pdpt.toLinks mapped.pdir.toLinks mapped.ptab.toLinks
  refine .after asked ?_
  rw [if_pos same]
  exact load_page reaches mapped

theorem virtToPhys_inactive (inactive : m.core.target table ≠ m.core.cr3)
    (aligned : frameAddress (frameOf table) = table) (shown : TablesShown m.core table g1 g2 g3)
    (mapped : Mapped m.core.mem (frameOf table) v f g1 g2 g3) : Yields m (vmmVirtToPhys table v) fun result m' =>
      result = frameAddress f + getPageOffset v ∧ m'.core = m.core := by
  have asked : readCr3 m = some (frameAddress m.core.cr3, m) := rfl
  have other : ¬ (table = frameAddress m.core.cr3 ∨ table = 0#64) :=
    fun same => inactive ((active_iff aligned).mp ((or_congr_left eq_comm).mp same))
  refine .after asked ?_
  rw [if_neg other]
  refine (vmmGetEntry_refers shown.root mapped.pdpt).bind ?_
  rintro _ m1 ⟨rfl, core1⟩
  rw [← core1] at mapped shown
  refine (vmmGetEntry_refers shown.pdpt mapped.pdir).bind ?_
  rintro _ m2 ⟨rfl, core2⟩
  rw [← core2] at mapped shown
  refine (vmmGetEntry_refers shown.pdir mapped.ptab).bind ?_
  rintro _ m3 ⟨rfl, core3⟩
  rw [← core3] at mapped shown
  refine (load_page shown.ptab mapped).mono ?_
  intro result m4 done
  exact ⟨done.1, done.2.trans (core3.trans (core2.trans core1))⟩

/-- A page is translated right if its space is active, or if the active space shows the tables of
    its space where the code looks for them. -/
theorem virtToPhys_translates (aligned : frameAddress (frameOf table) = table)
    (self : Links m.core.mem m.core.cr3 recurseActive m.core.cr3)
    (mapped : Mapped m.core.mem (m.core.target table) v f g1 g2 g3)
    (shown : m.core.target table = m.core.cr3 ∨ TablesShown m.core table g1 g2 g3) :
    Yields m (vmmVirtToPhys table v) fun result m' =>
      result = frameAddress f + getPageOffset v ∧ m'.core = m.core := by
  by_cases active : m.core.target table = m.core.cr3
  · rw [active] at mapped
    exact virtToPhys_active active aligned self mapped
  · have target : m.core.target table = frameOf table := if_neg (fun zero => active (if_pos zero))
    rw [target] at mapped
    exact virtToPhys_inactive active aligned (shown.resolve_left active) mapped

end Translations

theorem refers_pageCreate {mem : Mem} {g h : Frame} {i : Index} (prop : PageProperties)
    (same : mem g i = pageCreate (frameAddress h) prop) : Refers mem g i h where
  toLinks := links_pageCreate prop same
  address := by rw [same, getPhysicalAddress_pageCreate]

def pageEntry (f : Frame) : W64 := pageCreate (frameAddress f) pageKernelWrite

theorem lone_facts : [(3#40, 0#9), (5#40, 0#9), (6#40, 0#9), (7#40, 0#9), (1#40, recurseActive), (3#40, recurseActive)].map
      (fun (place : Frame × Index) => loneCore.mem place.1 place.2) =
        [pageEntry 5#40, pageEntry 6#40, pageEntry 7#40, pageEntry 11#40, pageEntry 1#40, pageEntry 3#40] ∧
    (vmmVirtToPhys 0x3000#64 0#64 ⟨loneCore, [], []⟩).isNone = true := by
  decide +kernel

theorem lone_entries : Mapped loneCore.mem 3#40 0#64 11#40 5#40 6#40 7#40 ∧ Refers loneCore.mem 1#40 recurseActive 1#40 ∧
    Refers loneCore.mem 3#40 recurseActive 3#40 := by
  have entries := lone_facts.1
  simp only [List.map_cons, List.map_nil, List.cons.injEq] at entries
  obtain ⟨one, two, three, page, first, third, -⟩ := entries
  exact ⟨⟨refers_pageCreate _ one, refers_pageCreate _ two, refers_pageCreate _ three, _, page⟩,
    refers_pageCreate _ first, refers_pageCreate _ third⟩

def loneActive : Machine := ⟨{ loneCore with cr3 := 3#40 }, [], []⟩

theorem virtToPhys_translates_active : Yields loneActive (vmmVirtToPhys 0x3000#64 0x123#64) fun result m' =>
    result = 0xb123#64 ∧ m'.core = loneActive.core := by
  have table : loneActive.core.target 0x3000#64 = 3#40 := by decide
  have page : frameAddress 11#40 + getPageOffset 0x123#64 = 0xb123#64 := by decide
  have mapped : Mapped loneActive.core.mem (loneActive.core.target 0x3000#64) 0x123#64 11#40 5#40 6#40 7#40 := by
    rw [table]
    exact ⟨lone_entries.1.pdpt, lone_entries.1.pdir, lone_entries.1.ptab, lone_entries.1.page⟩
  rw [← page]
  exact virtToPhys_translates (by decide) lone_entries.2.2.toLinks mapped (.inl table)

/-- The table of an inactive space is read at its physical address, where nothing is mapped. -/
theorem inactive_not_translated : Mapped loneCore.mem (loneCore.target 0x3000#64) 0#64 11#40 5#40 6#40 7#40 ∧
    Links loneCore.mem loneCore.cr3 recurseActive loneCore.cr3 ∧
    vmmVirtToPhys 0x3000#64 0#64 ⟨loneCore, [], []⟩ = none := by
  have table : loneCore.target 0x3000#64 = 3#40 := by decide
  have active : loneCore.cr3 = 1#40 := rfl
  rw [table, active]
  exact ⟨lone_entries.1, lone_entries.2.1.toLinks, Option.isNone_iff_eq_none.mp lone_facts.2⟩

end Neutrino.Virtual
