import Neutrino.Virtual.Release

namespace Neutrino.Virtual

open Library

section Bounded

variable {c c' : Core} {t r : Frame}

theorem Bounded.linked (bounded : Bounded c.mem r) (target : Space c t) (space : Space c r)
    (small : ∀ f ∈ c.supply, f.toNat < 2 ^ 27) (linked : Linked t c c') : Bounded c'.mem r := by
  rintro h j ⟨ys, path⟩ present
  cases linked with
  | @intro xs g f i rest prop place high absent taken =>
    have apart := target.apart place taken
    rcases (grown_link absent apart).follow_cases
      (fun zs reached => space.fresh f (first_mem taken) ⟨zs, reached⟩) path with old | ⟨rfl, -⟩
    · by_cases edited : h = g ∧ j = i
      · obtain ⟨rfl, rfl⟩ := edited
        have entry : (c.link h j f prop rest).mem h j = pageCreate (frameAddress f) prop := link_self apart
        have bound := small f (first_mem taken)
        rw [entry, getPhysicalAddress_pageCreate, frameAddress_toNat]
        omega
      · have other : h ≠ f := by
          rintro rfl
          exact space.fresh h (first_mem taken) ⟨ys, old⟩
        have entry : (c.link g i f prop rest).mem h j = c.mem h j := link_of_ne other edited
        rw [entry] at present ⊢
        exact bounded h j ⟨ys, old⟩ present
    · have zero : (c.link g i h prop rest).mem h j = 0#64 := link_blank
      rw [zero, isPresent_zero] at present
      cases present

theorem Bounded.grows (bounded : Bounded c.mem r) (target : Space c t) (space : Space c r)
    (small : ∀ f ∈ c.supply, f.toNat < 2 ^ 27) (grows : Grows t c c') : Bounded c'.mem r := by
  induction grows with
  | refl => exact bounded
  | tail before linked ih =>
    exact ih.linked (Grows.space before target target) (Grows.space before target space)
      (fun f member => small f (Grows.supply before member)) linked

end Bounded

/-- The core stays as it is. -/
def Looks (x : Index) (t : Frame) (path : List Index) (m m' : Machine) : Prop :=
  m'.core = m.core ∧ Orderly x t path m m'

section Tables

variable {m m' m'' : Machine} {x : Index} {t g parent : Frame} {xs path : List Index} {i : Index}

theorem Looks.trans (first : Looks x t path m m') (second : Looks x t path m' m'') :
    Looks x t path m m'' :=
  ⟨second.1.trans first.1, first.2.trans second.2⟩

theorem Looks.refl (m : Machine) : Looks x t path m m :=
  ⟨rfl, fun calm => ⟨(Silent.refl m).exact, calm⟩⟩

section

variable (gate : Gate m.core x t) (place : follow branches m.core.mem 3 t xs = some g) (inside : xs <+: path)
include gate place inside

theorem load_window (short : path.length ≤ 3) (i : Index) :
    Yields m (load (entryAddress (window x xs) (i.setWidth 64))) fun e m' =>
      e = m.core.mem g i ∧ Looks x t path m m' := by
  refine .of_eq (load_entry (reaches_window gate place) i) ⟨rfl, rfl, ?_⟩
  exact (traced_used m _ g m.core).orderly gate.slot (fun _ _ _ reached => reached) inside short place

theorem store_window (short : path.length ≤ 3) {value : W64}
    (kept : ∀ ys f, follow branches (m.core.mem.write g i value) 3 t ys = some f →
      follow branches m.core.mem 3 t ys = some f) :
    Yields m (store (entryAddress (window x xs) (i.setWidth 64)) value) fun _ m' =>
      m'.core = m.core.withMem (m.core.mem.write g i value) ∧ Orderly x t path m m' := by
  refine .of_eq (store_entry (reaches_window gate place) i value) ⟨rfl, ?_⟩
  exact (traced_used m _ g _).orderly gate.slot (fun ys f _ reached => kept ys f reached) inside short place

theorem vmmGetEntry_window (short : path.length ≤ 3) (i : Index) :
    Yields m (vmmGetEntry (window x xs) (i.setWidth 64)) fun a m' =>
      (a ≠ 0#64 ↔ isEntry (m.core.mem g i) = true) ∧ Looks x t path m m' := by
  unfold vmmGetEntry
  refine (load_window gate place inside short i).bind ?_
  rintro _ m1 ⟨rfl, looks⟩
  by_cases present : isPresent (m.core.mem g i) = true
  · rw [if_pos present]
    rw [← looks.1] at gate place
    refine (load_window gate place inside short i).bind ?_
    rintro _ m2 ⟨rfl, looks'⟩
    refine .pure ⟨?_, looks.trans looks'⟩
    rw [looks.1]
    simp [isEntry, present]
  · rw [if_neg present]
    exact .pure ⟨by simp [isEntry, present], looks⟩

theorem vmmIsTableFreeFrom_window (short : path.length ≤ 3) (entries : List Nat) (small : ∀ k ∈ entries, k < 512) :
    Yields m (vmmIsTableFreeFrom (window x xs) entries) fun free m' =>
      (free = true ↔ ∀ k ∈ entries, isEntry (m.core.mem g (BitVec.ofNat 9 k)) = false) ∧
        Looks x t path m m' := by
  induction entries generalizing m with
  | nil => exact .pure ⟨by simp, .refl m⟩
  | cons k entries ih =>
    unfold vmmIsTableFreeFrom
    rw [ofNat_index (small k List.mem_cons_self)]
    refine (vmmGetEntry_window gate place inside short _).bind ?_
    rintro a m1 ⟨found, looks⟩
    by_cases used : a ≠ 0#64
    · rw [if_pos used]
      have present := found.mp used
      refine .pure ⟨?_, looks⟩
      simp [present]
    · rw [if_neg used]
      have absent : isEntry (m.core.mem g (BitVec.ofNat 9 k)) = false := by
        simpa using mt found.mpr used
      have same := looks.1
      rw [← same] at gate place
      refine (ih gate place fun j member => small j (List.mem_cons_of_mem k member)).mono ?_
      rintro free m2 ⟨rest, looks'⟩
      rw [same] at rest
      exact ⟨by simp [rest, absent], looks.trans looks'⟩

theorem vmmIsTableFree_window (short : path.length ≤ 3) : Yields m (vmmIsTableFree (window x xs)) fun free m' =>
      (free = true ↔ Vacant m.core.mem g) ∧ Looks x t path m m' := by
  refine (vmmIsTableFreeFrom_window gate place inside short (List.range 512)
    fun k member => List.mem_range.mp member).mono ?_
  rintro free m' ⟨all, looks⟩
  refine ⟨all.trans ⟨fun none j => ?_, fun vacant k _ => vacant _⟩, looks⟩
  have entry := none j.toNat (List.mem_range.mpr j.isLt)
  rwa [BitVec.ofNat_toNat, BitVec.setWidth_eq] at entry

end

theorem Gate.free {c : Core} (gate : Gate c x t) (freed : List W64) : Gate { c with freed := freed } x t :=
  ⟨gate.slot, gate.active, gate.target⟩

theorem pmmFree_yields (addr : W64) : Yields m (pmmFree addr) fun _ m' =>
    m'.core = { m.core with freed := m.core.freed ++ [addr] } ∧ Silent m m' :=
  .of_eq rfl ⟨rfl, .of_eq rfl fun _ _ member => member⟩

theorem vmmFreeIfNecessaryTable_window (gate : Gate m.core x t)
    (above : follow branches m.core.mem 3 t xs = some parent)
    (place : follow branches m.core.mem 3 t (xs ++ [i]) = some g) (inside : xs ++ [i] <+: path)
    (short : path.length ≤ 3) :
    Yields m (vmmFreeIfNecessaryTable (window x (xs ++ [i])) (window x xs) (i.setWidth 64)) fun _ m' =>
      m'.core = m.core.reclaim g parent i ∧ Orderly x t path m m' := by
  have upper : xs <+: path := (List.prefix_append xs [i]).trans inside
  unfold vmmFreeIfNecessaryTable
  refine (vmmIsTableFree_window gate place inside short).bind ?_
  rintro free m1 ⟨empty, core1, orderly1⟩
  by_cases vacant : Vacant m.core.mem g
  · rw [if_pos (empty.mpr vacant)]
    rw [← core1] at gate above
    refine (load_window gate above upper short i).bind ?_
    rintro _ m2 ⟨rfl, core2, orderly2⟩
    refine (pmmFree_yields _).bind ?_
    rintro ⟨⟩ m3 ⟨core3, silent3⟩
    have same : m3.core.mem = m1.core.mem := by rw [core3, core2]
    have gate3 : Gate m3.core x t := by
      rw [core3, core2]
      exact gate.free _
    have above3 : follow branches m3.core.mem 3 t xs = some parent := by rw [same, above]
    refine (load_window gate3 above3 upper short i).bind ?_
    rintro _ m4 ⟨rfl, core4, orderly4⟩
    have gate4 : Gate m4.core x t := by
      rw [core4]
      exact gate3
    have above4 : follow branches m4.core.mem 3 t xs = some parent := by rw [core4, above3]
    refine (store_window gate4 above4 upper short ?_).mono ?_
    · intro ys f path'
      refine Fewer.follow ?_ path'
      rw [core4]
      exact clear_fewer m3.core parent i
    · rintro ⟨⟩ m5 ⟨core5, orderly5⟩
      have orderly3 : Orderly x t path m2 m3 :=
        silent3.orderly (fun _ _ _ reached => by rw [core3] at reached; exact reached) short
      refine ⟨?_, (((orderly1.trans orderly2).trans orderly3).trans orderly4).trans orderly5⟩
      rw [core5, core4, core3, core2, core1, Core.reclaim, if_pos vacant]
      rfl
  · rw [if_neg (mt empty.mp vacant)]
    refine .pure ⟨?_, orderly1⟩
    rw [core1, Core.reclaim, if_neg vacant]

theorem vmmGetOrCreateEntry_window (gate : Gate m.core x t)
    (place : follow branches m.core.mem 3 t xs = some g) (present : isPresent (m.core.mem g i) = true)
    (inside : xs <+: path) (short : path.length ≤ 3) (prop : PageProperties) :
    Yields m (vmmGetOrCreateEntry (window x xs) (i.setWidth 64) prop) fun _ m' => Looks x t path m m' := by
  unfold vmmGetOrCreateEntry
  refine (load_window gate place inside short i).bind ?_
  rintro _ m1 ⟨rfl, looks⟩
  rw [if_pos present]
  rw [← looks.1] at gate place
  refine (load_window gate place inside short i).bind ?_
  rintro _ m2 ⟨-, looks'⟩
  exact .pure (looks.trans looks')

end Tables

section FreeTables

variable {m : Machine} {x : Index} {t t1 t2 t3 : Frame} {v : W64}

theorem vmmGetTableAddress_window (gate : Gate m.core x t) (chain : Chain m.core.mem v t t1 t2 t3)
    (outside : getPl4Index v ≠ recurseActive) {depth : Nat} (low : 1 ≤ depth) (high : depth ≤ 3) :
    Yields m (vmmGetTableAddress (window x []) v depth) fun table m' =>
      table = window x ((directories v).take depth) ∧ Looks x t (directories v) m m' := by
  have short : (directories v).length ≤ 3 := Nat.le_refl 3
  unfold vmmGetTableAddress
  simp only [isRecursive_window, ↓reduceIte, getRecursiveAddress_zero]
  rw [window, getPagingPath_tableAddress]
  obtain rfl | rfl | rfl : depth = 1 ∨ depth = 2 ∨ depth = 3 := by omega
  · exact .pure ⟨rfl, .refl m⟩
  · refine (vmmGetOrCreateEntry_window gate (chain.pointers outside) chain.second.present
      ⟨[getDptIndex v, getDirIndex v], rfl⟩ short pageKernelWrite).bind ?_
    intro _ m1 looks
    exact .pure ⟨rfl, looks⟩
  · refine (vmmGetOrCreateEntry_window gate (chain.pointers outside) chain.second.present
      ⟨[getDptIndex v, getDirIndex v], rfl⟩ short pageKernelWrite).bind ?_
    intro _ m1 looks
    rw [← looks.1] at gate chain
    refine (vmmGetOrCreateEntry_window gate (chain.directory outside) chain.third.present
      ⟨[getDirIndex v], rfl⟩ short pageKernelWrite).bind ?_
    intro _ m2 looks'
    exact .pure ⟨rfl, looks.trans looks'⟩

theorem Gate.reclaim {c : Core} {g parent : Frame} {i : Index} (gate : Gate c x t) (other : c.cr3 ≠ parent) :
    Gate (c.reclaim g parent i) x t := by
  refine ⟨gate.slot, ?_, ?_⟩
  · rw [reclaim_other.1]
    exact gate.active.of_row (reclaim_row other)
  · rw [reclaim_other.1]
    exact gate.target.of_row (reclaim_row other)

theorem vmmFreeIfNecessaryTables_window (gate : Gate m.core x t) (chain : Chain m.core.mem v t t1 t2 t3)
    (outside : getPl4Index v ≠ recurseActive) (tree : Tree m.core.mem t)
    (apart1 : m.core.cr3 ≠ t1) (apart2 : m.core.cr3 ≠ t2) :
    Yields m (vmmFreeIfNecessaryTables (window x []) v) fun _ m' =>
      m'.core = ((m.core.reclaim t3 t2 (getDirIndex v)).reclaim t2 t1 (getDptIndex v)).reclaim
        t1 t (getPl4Index v) ∧ Orderly x t (directories v) m m' := by
  have short : (directories v).length ≤ 3 := Nat.le_refl 3
  obtain ⟨d1, d2, d3, d21, d31, d32⟩ := chain.distinct outside tree
  unfold vmmFreeIfNecessaryTables
  -- the addresses of the three tables; the levels are all there
  refine (vmmGetTableAddress_window gate chain outside (Nat.le_refl 1) (by decide)).bind ?_
  rintro _ n1 ⟨rfl, core1, orderly1⟩
  rw [← core1] at gate chain
  refine (vmmGetTableAddress_window gate chain outside (by decide) (by decide : 2 ≤ 3)).bind ?_
  rintro _ n2 ⟨rfl, core2, orderly2⟩
  rw [← core2] at gate chain
  refine (vmmGetTableAddress_window gate chain outside (by decide) (Nat.le_refl 3)).bind ?_
  rintro _ n3 ⟨rfl, core3, orderly3⟩
  rw [← core3] at gate chain
  have same : n3.core = m.core := by rw [core3, core2, core1]
  rw [← same] at tree apart1 apart2
  -- the last table, in its directory
  refine (vmmFreeIfNecessaryTable_window gate (chain.directory outside) (chain.last outside)
    List.prefix_rfl short).bind ?_
  rintro ⟨⟩ n4 ⟨core4, orderly4⟩
  have gate4 : Gate n4.core x t := by
    rw [core4]
    exact gate.reclaim apart2
  have first4 : Links n4.core.mem t (getPl4Index v) t1 := by
    rw [core4]
    exact chain.first.of_row (reclaim_row d2.symm)
  have second4 : Links n4.core.mem t1 (getDptIndex v) t2 := by
    rw [core4]
    exact chain.second.of_row (reclaim_row d21.symm)
  have pointers4 := follow_pl4 first4 outside
  have directory4 := follow_snoc pointers4 (branches_links second4 (by simp) (by simp) (by simp))
  refine (vmmFreeIfNecessaryTable_window gate4 pointers4 directory4 ⟨[getDirIndex v], rfl⟩ short).bind ?_
  rintro ⟨⟩ n5 ⟨core5, orderly5⟩
  have gate5 : Gate n5.core x t := by
    rw [core5]
    refine gate4.reclaim ?_
    rw [core4, reclaim_other.1]
    exact apart1
  have first5 : Links n5.core.mem t (getPl4Index v) t1 := by
    rw [core5]
    exact first4.of_row (reclaim_row d1.symm)
  have root : follow branches n5.core.mem 3 t [] = some t := rfl
  refine (vmmFreeIfNecessaryTable_window gate5 root (follow_pl4 first5 outside)
    ⟨[getDptIndex v, getDirIndex v], rfl⟩ short).mono ?_
  rintro ⟨⟩ n6 ⟨core6, orderly6⟩
  refine ⟨by rw [core6, core5, core4, same], ?_⟩
  exact ((((orderly1.trans orderly2).trans orderly3).trans orderly4).trans orderly5).trans orderly6

end FreeTables

section Simulation

variable {m : Machine} {x : Index} {t mirror : Frame} {v table : W64}

theorem tableAddress_ne (w x y z : Index) : tableAddress w x y z ≠ 0#64 := by
  intro zero
  have value := congrArg BitVec.toNat zero
  rw [tableAddress_toNat] at value
  have none : (0#64).toNat = 0 := rfl
  omega

theorem Editable.below_ne {c c1 : Core} {g : Frame} (edit : Editable c t v)
    (apart : t ≠ c.cr3 → ¬ IsTable c.mem t c.cr3) (unused : c.cr3 ∉ c.supply) (grows : Grows t c c1)
    (table : IsTable c1.mem t g) (below : g ≠ t) : c.cr3 ≠ g := by
  rintro rfl
  exact edit.tables_ne (apart below.symm) unused grows table rfl

theorem vmmUnmapPageImpl_simulates (gate : Gate m.core x t) (backed : Backed m.core mirror)
    (edit : Editable m.core t v)
    (apart : t ≠ m.core.cr3 → ¬ IsTable m.core.mem t m.core.cr3) :
    Simulates Machine.core m (vmmUnmapPageImpl (window x []) v) (removePage t v)
      fun _ _ m' => Orderly x t (directories v) m m' := by
  have short : (directories v).length ≤ 3 := Nat.le_refl 3
  have outside := edit.outside
  unfold vmmUnmapPageImpl removePage
  refine (vmmGetMostNestedTable_simulates gate backed edit.space outside edit.way pageKernelWrite).bind ?_
  rintro _ t3 m1 taken ⟨rfl, orderly1⟩
  obtain ⟨grows, -⟩ := edit.descend taken
  obtain ⟨t1, t2, -, -, -, -, -, chain⟩ := descend_levels edit taken
  have space1 := grows.space edit.space edit.space
  have root := grows.other.1
  have gate1 := gate.grows backed.unused grows
  obtain ⟨d1, d2, d3, d21, d31, d32⟩ := chain.distinct outside space1.tree
  have other1 := edit.below_ne apart backed.unused grows ⟨_, chain.pointers outside⟩ d1
  have other2 := edit.below_ne apart backed.unused grows ⟨_, chain.directory outside⟩ d2
  have other3 := edit.below_ne apart backed.unused grows ⟨_, chain.last outside⟩ d3
  apply Simulates.of_modify
  simp only [chain.first.frame, chain.second.frame]
  have there : window x (directories v) ≠ 0#64 := tableAddress_ne _ _ _ _
  rw [if_neg there]
  refine (load_window gate1 (chain.last outside) List.prefix_rfl short (getTabIndex v)).bind ?_
  rintro _ m2 ⟨rfl, core2, orderly2⟩
  rw [← core2] at gate1 chain
  have clears := clear_fewer m1.core t3 (getTabIndex v)
  refine (store_window gate1 (chain.last outside) List.prefix_rfl short ?_).bind ?_
  · rw [core2]
    exact fun ys f path => clears.follow path
  rintro ⟨⟩ m3 ⟨core3, orderly3⟩
  rw [core2] at core3 gate1 chain
  have core3' : m3.core = m1.core.clear t3 (getTabIndex v) := core3
  obtain ⟨⟨first, second, third⟩, -⟩ := cut_links chain outside space1.tree
  have gate3 : Gate m3.core x t := by
    rw [core3']
    refine ⟨gate1.slot, gate1.active.of_row ?_, gate1.target.of_row ?_⟩
    · exact funext fun j => clear_of_ne fun both => other3 (root.symm.trans both.1)
    · exact funext fun j => clear_of_ne fun both => other3 (root.symm.trans both.1)
  have same : m3.core.cr3 = m.core.cr3 := by
    rw [core3']
    exact root
  have chain3 : Chain m3.core.mem v t t1 t2 t3 := by
    rw [core3']
    exact ⟨first, second, third⟩
  have tree3 : Tree m3.core.mem t := by
    rw [core3']
    exact fun xs ys f here there => space1.tree xs ys f (clears.follow here) (clears.follow there)
  refine (vmmFreeIfNecessaryTables_window gate3 chain3 outside tree3 (by rw [same]; exact other1)
    (by rw [same]; exact other2)).bind ?_
  rintro ⟨⟩ m4 ⟨core4, orderly4⟩
  refine (vmmReloadTlb_yields v).bind ?_
  rintro ⟨⟩ m5 ⟨core5, silent5, -⟩
  have orderly5 : Orderly x t (directories v) m4 m5 :=
    silent5.orderly (fun _ _ _ reached => by rw [core5] at reached; exact reached) short
  refine .pure ⟨by rw [core5, core4, core3']; rfl, ?_⟩
  exact (((orderly1.trans orderly2).trans orderly3).trans orderly4).trans orderly5

theorem clear_setOther {c : Core} {g : Frame} {i : Index} {e : W64} (other : g ≠ c.cr3) :
    (c.setOther e).clear g i = (c.clear g i).setOther e := by
  have entry : (c.setOther e).mem g i = c.mem g i := write_of_ne fun both => other both.1
  rw [Core.clear, entry]
  exact congrArg c.withMem (write_comm other.symm)

theorem reclaim_setOther {c : Core} {g k parent : Frame} {i : Index} {e : W64} (root : c.cr3 = k)
    (other : g ≠ k) (above : parent ≠ k) :
    (c.setOther e).reclaim g parent i = (c.reclaim g parent i).setOther e := by
  subst root
  have row : (c.setOther e).mem g = c.mem g := funext fun j => write_of_ne fun both => other both.1
  have entry : (c.setOther e).mem parent i = c.mem parent i := write_of_ne fun both => above both.1
  unfold Core.reclaim
  by_cases vacant : Vacant c.mem g
  · rw [if_pos vacant, if_pos ((vacant_congr row).mpr vacant), clear_setOther above, entry]
    rfl
  · rw [if_neg vacant, if_neg (mt (vacant_congr row).mp vacant)]

theorem removePage_setOther {c : Core} (edit : Editable c t v) (apart : ¬ IsTable c.mem t c.cr3)
    (unused : c.cr3 ∉ c.supply) (e : W64) :
    removePage t v (c.setOther e) = (removePage t v c).map fun done => (done.1, done.2.setOther e) := by
  have swap : descend (superProperties pageKernelWrite) t (directories v) (c.setOther e) =
      (descend (superProperties pageKernelWrite) t (directories v) c).map
        fun done => (done.1, done.2.setOther e) :=
    descend_setOther edit.space edit.start apart unused
  simp only [removePage, Bind.bind, StateT.bind, swap]
  cases taken : descend (superProperties pageKernelWrite) t (directories v) c with
  | none => rfl
  | some done =>
    obtain ⟨t3, c1⟩ := done
    obtain ⟨grows, -⟩ := edit.descend taken
    obtain ⟨t1, t2, -, -, -, -, -, chain⟩ := descend_levels edit taken
    have outside := edit.outside
    have tables : ∀ g, IsTable c1.mem t g → g ≠ c1.cr3 := by
      intro g table
      rw [grows.other.1]
      exact (edit.tables_ne apart unused grows table).symm
    have top := tables t ⟨[], rfl⟩
    have other1 := tables t1 ⟨_, chain.pointers outside⟩
    have other2 := tables t2 ⟨_, chain.directory outside⟩
    have other3 := tables t3 ⟨_, chain.last outside⟩
    have first : (c1.setOther e).mem t (getPl4Index v) = c1.mem t (getPl4Index v) :=
      write_of_ne fun both => top both.1
    have second : (c1.setOther e).mem t1 (getDptIndex v) = c1.mem t1 (getDptIndex v) :=
      write_of_ne fun both => other1 both.1
    have same : (c1.setOther e).remove v t t1 t2 t3 = (c1.remove v t t1 t2 t3).setOther e := by
      have root0 : (c1.clear t3 (getTabIndex v)).cr3 = c1.cr3 := rfl
      have root1 : ((c1.clear t3 (getTabIndex v)).reclaim t3 t2 (getDirIndex v)).cr3 = c1.cr3 := reclaim_other.1
      rw [Core.remove, Core.cut3, Core.cut2, Core.cut1, clear_setOther other3, reclaim_setOther root0 other3 other2,
        reclaim_setOther root1 other2 other1, reclaim_setOther (reclaim_other.1.trans root1) other1 top]
      rfl
    refine congrArg (fun c => some ((), c)) ?_
    simp only [first, chain.first.frame, second, chain.second.frame, same]

theorem remove_row {c : Core} {t1 t2 t3 h : Frame} (top : h ≠ t) (first : h ≠ t1) (second : h ≠ t2)
    (third : h ≠ t3) : (c.remove v t t1 t2 t3).mem h = c.mem h := by
  rw [Core.remove, reclaim_row top, Core.cut3, reclaim_row first, Core.cut2, reclaim_row second]
  exact funext fun j => clear_of_ne fun both => third both.1

theorem removePage_links {c c' : Core} {i : Index} {h : Frame} (edit : Editable c t v)
    (apart : ¬ IsTable c.mem t c.cr3) (unused : c.cr3 ∉ c.supply) (links : Links c.mem c.cr3 i h)
    (taken : removePage t v c = some ((), c')) : c'.cr3 = c.cr3 ∧ Links c'.mem c.cr3 i h := by
  obtain ⟨t1, t2, t3, c1, grows, chain, rfl, -⟩ := removePage_spec edit taken
  have tables : ∀ g, IsTable c1.mem t g → c.cr3 ≠ g := fun _ => edit.tables_ne apart unused grows
  have outside := edit.outside
  refine ⟨?_, (grows.links unused links).of_row (remove_row (tables t ⟨[], rfl⟩)
    (tables t1 ⟨_, chain.pointers outside⟩) (tables t2 ⟨_, chain.directory outside⟩)
    (tables t3 ⟨_, chain.last outside⟩))⟩
  rw [Core.remove, reclaim_other.1, Core.cut3, reclaim_other.1, Core.cut2, reclaim_other.1]
  exact grows.other.1

theorem vmmUnmapPage_simulates (aligned : frameAddress (frameOf table) = table)
    (ready : Ready m.core (m.core.target table) mirror) (edit : Editable m.core (m.core.target table) v) :
    Simulates Machine.core m (vmmUnmapPage table v)
      (do modify (·.shut (m.core.target table)); removePage (m.core.target table) v)
      fun _ _ m' => (m.core.target table ≠ m.core.cr3 → Coherent m (m.core.target table) (directories v)) →
        (m.core.target table = m.core.cr3 → gatePath (directories v) = false) → Exact (m.core.target table) m m' := by
  have asked : readCr3 m = some (frameAddress m.core.cr3, m) := rfl
  unfold vmmUnmapPage
  refine .after asked rfl ?_
  refine edit_simulates (fun link => vmmUnmapPageImpl link v) aligned rfl ready edit removePage_setOther
    removePage_links vmmUnmapPageImpl_simulates ?_ fun apart coherent m1 before _ core =>
      coherent.opened apart (Nat.le_refl 3) before core
  intro res n
  refine (vmmReloadTlb_yields v).bind ?_
  rintro ⟨⟩ n' ⟨core, silent, -⟩
  exact .pure ⟨core, silent⟩

end Simulation

section Correctness

variable {m : Machine} {c c' : Core} {t r mirror : Frame} {v table : W64} {q : PageNumber}

theorem Way.pathTables {mem mem' : Mem} {g : Frame} {xs ys : List Index} (way : Way mem t xs g ys)
    (same : ∀ g, IsTable mem t g → mem' g = mem g) (supply : List Frame) :
    pathTables mem' g ys supply = pathTables mem g ys supply := by
  induction ys generalizing xs g with
  | nil => rfl
  | cons i ys ih =>
    rw [Virtual.pathTables, Virtual.pathTables, same g ⟨xs, way.place⟩]
    by_cases present : isPresent (mem g i) = true
    · rw [ih (way.step present).2]
    · rw [if_neg present, if_neg present]

theorem pathTables_shut (edit : Editable c t v) (apart : t ≠ c.cr3 → ¬ IsTable c.mem t c.cr3)
    (supply : List Frame) :
    pathTables (c.shut t).mem t (directories v) supply = pathTables c.mem t (directories v) supply :=
  edit.start.pathTables (fun _ => shut_row apart) supply

theorem shut_fewer : Fewer c.mem (c.shut t).mem := by
  unfold Core.shut
  split
  · exact fun _ _ _ => rfl
  · intro h j present
    apply write_of_ne
    rintro ⟨rfl, rfl⟩
    have zero : (c.setOther 0#64).mem c.cr3 recurseOther = 0#64 := write_self
    rw [zero, isPresent_zero] at present
    cases present

theorem removePage_other (edit : Editable c t v) (bounded : Bounded c.mem t)
    (small : ∀ f ∈ c.supply, f.toNat < 2 ^ 27) (inside : canonical (pageNumber v) = true) (space : Space c r)
    (aligned : Aligned c.mem t r) (taken : removePage t v c = some ((), c')) (other : q ≠ pageNumber v)
    (outside : slotOf q ≠ recurseActive) : walk c'.mem r q = walk c.mem r q := by
  obtain ⟨t1, t2, t3, c1, grows, chain, rfl, -⟩ := removePage_spec edit taken
  apply walk_congr outside
  intro here
  have spaced := grows.space edit.space edit.space
  refine (remove_lookup chain edit.outside spaced.tree (bounded.grows edit.space edit.space small grows)
    (grows.aligned edit.space space aligned) (indices_length q) ?_).trans
    (grows.lookup_eq edit.space space aligned (indices_length q))
  intro same
  exact other (indices_injective here inside (same.trans (directories_append v).symm))

theorem removePage_freed (edit : Editable c t v) (bounded : Bounded c.mem t)
    (small : ∀ f ∈ c.supply, f.toNat < 2 ^ 27) (taken : removePage t v c = some ((), c')) :
    c'.freed = c.freed ++ ((pathTables c.mem t (directories v) c.supply).reverse.filter
      fun g => Blank c'.mem g).map frameAddress ∧
    ∀ g ∈ pathTables c.mem t (directories v) c.supply, Blank c'.mem g → ¬ IsTable c'.mem t g := by
  obtain ⟨t1, t2, t3, c1, grows, chain, rfl, tables, -⟩ := removePage_spec edit taken
  have spaced := grows.space edit.space edit.space
  rw [tables]
  constructor
  · rw [remove_freed chain edit.outside spaced.tree (bounded.grows edit.space edit.space small grows),
      grows.other.2.2]
    rfl
  · intro g member blank
    refine remove_gone chain edit.outside spaced.tree ?_ blank
    simp only [List.mem_cons, List.not_mem_nil, or_false] at member ⊢
    tauto

theorem vmmUnmapPage_correct (aligned : frameAddress (frameOf table) = table)
    (ready : Ready m.core (m.core.target table) mirror) (edit : Editable m.core (m.core.target table) v)
    (bounded : Bounded m.core.mem (m.core.target table)) (inside : canonical (pageNumber v) = true)
    (enough : 3 ≤ m.core.supply.length) :
    ∃ res m', vmmUnmapPage table v m = some (res, m') ∧
      walk m'.core.mem (m.core.target table) (pageNumber v) = none ∧
      (∀ q, q ≠ pageNumber v → slotOf q ≠ recurseActive →
        walk m'.core.mem (m.core.target table) q = walk m.core.mem (m.core.target table) q) ∧
      m'.core.freed = m.core.freed ++
        ((pathTables m.core.mem (m.core.target table) (directories v) m.core.supply).reverse.filter
          fun g => Blank m'.core.mem g).map frameAddress ∧
      (∀ g ∈ pathTables m.core.mem (m.core.target table) (directories v) m.core.supply,
        Blank m'.core.mem g → ¬ IsTable m'.core.mem (m.core.target table) g) ∧
      ∀ g i, isPresent (m'.core.mem g i) = true → m'.core.mem g i = m.core.mem g i := by
  have there := edit.shut ready.apart
  have low : Bounded (m.core.shut (m.core.target table)).mem (m.core.target table) :=
    bounded.fewer shut_fewer
  obtain ⟨c', taken⟩ : ∃ c', removePage (m.core.target table) v (m.core.shut (m.core.target table)) =
      some ((), c') := by
    apply removePage_total
    rw [shut_supply]
    exact enough
  have small : ∀ f ∈ (m.core.shut (m.core.target table)).supply, f.toNat < 2 ^ 27 := by
    rw [shut_supply]
    exact fun f member => (ready.backed.mirrored f member).small
  obtain ⟨res, m', done, core, -⟩ := (vmmUnmapPage_simulates aligned ready edit).yields taken
  obtain ⟨freed, gone⟩ := removePage_freed there low small taken
  rw [shut_supply, pathTables_shut edit ready.apart] at freed gone
  obtain ⟨t1, t2, t3, c1, grows, chain, same, -, fewer⟩ := removePage_spec there taken
  refine ⟨res, m', done, ?_⟩
  rw [core]
  refine ⟨?_, ?_, ?_, gone, shut_fewer.trans fewer⟩
  · rw [same]
    exact remove_walk chain edit.outside (grows.space there.space there.space).tree
      (low.grows there.space there.space small grows)
  · intro q other outside
    rw [removePage_other there low small inside there.space there.space.tree.aligned taken other outside,
      walk_shut ready.apart outside]
  · rw [freed]
    unfold Core.shut
    split <;> rfl

theorem mapPage_bounded {physAddr : W64} {prop : PageProperties} (edit : Editable c t v) (space : Space c r)
    (aligned : Aligned c.mem t r) (bounded : Bounded c.mem r) (small : ∀ f ∈ c.supply, f.toNat < 2 ^ 27)
    (low : (getPhysicalAddress (pageCreate physAddr prop)).toNat < 2 ^ 47)
    (taken : mapPage t physAddr v prop c = some ((), c')) : Bounded c'.mem r := by
  obtain ⟨pt, c1, first, rfl⟩ := mapPage_cases taken
  obtain ⟨grows, place⟩ := edit.descend first
  have kept := grows.aligned edit.space space aligned
  rintro g i ⟨xs, path⟩ present
  have table : IsTable c1.mem r g := ⟨xs, (follow_leaf kept place rfl).mp path⟩
  by_cases edited : g = pt ∧ i = getTabIndex v
  · obtain ⟨rfl, rfl⟩ := edited
    have entry : (c1.mem.write g (getTabIndex v) (pageCreate physAddr prop)) g (getTabIndex v) =
        pageCreate physAddr prop := write_self
    exact (congrArg (fun e => (getPhysicalAddress e).toNat) entry).trans_lt low
  · have entry : (c1.mem.write pt (getTabIndex v) (pageCreate physAddr prop)) g i = c1.mem g i :=
      write_of_ne edited
    have before : isPresent (c1.mem g i) = true := by rw [← entry]; exact present
    have bound := bounded.grows edit.space space small grows g i table before
    exact (congrArg (fun e => (getPhysicalAddress e).toNat) entry).trans_lt bound

theorem boot_bounded : Bounded bootMem 1#40 := by
  rintro g i ⟨xs, path⟩ present
  rcases boot_tables path with ⟨-, rfl⟩ | ⟨-, rfl⟩
  · have low : ∀ i : Index, (getPhysicalAddress (bootMem 1#40 i)).toNat < 2 ^ 47 := by decide +kernel
    exact low i
  · have low : ∀ i : Index, (getPhysicalAddress (bootMem 2#40 i)).toNat < 2 ^ 47 := by decide +kernel
    exact low i

/-- The boot state with a page mapped at the address 0. -/
def mappedCore : Core :=
  ((mapPage 1#40 0x7000#64 0#64 pageKernelWrite
    (bootCore.withSupply [3#40, 4#40, 5#40, 6#40, 7#40, 8#40])).map (·.2)).getD bootCore

theorem mappedCore_eq : mapPage 1#40 0x7000#64 0#64 pageKernelWrite
    (bootCore.withSupply [3#40, 4#40, 5#40, 6#40, 7#40, 8#40]) = some ((), mappedCore) := rfl

theorem mapped_spare : Spare [3#40, 4#40, 5#40, 6#40, 7#40, 8#40] := ⟨by decide, by simp⟩

theorem mapped_editable : Editable mappedCore 1#40 0#64 := by
  have start : Editable (bootCore.withSupply [3#40, 4#40, 5#40, 6#40, 7#40, 8#40]) 1#40 0#64 :=
    ⟨boot_space mapped_spare, by decide, by decide⟩
  exact ⟨mapPage_space start start.space start.space.tree.aligned mappedCore_eq, by decide, by decide +kernel⟩

theorem mapped_ready : Ready mappedCore 1#40 2#40 where
  active := ⟨by decide +kernel, by decide +kernel, by decide +kernel⟩
  backed := by
    have supply : ∀ f ∈ mappedCore.supply, f = 6#40 ∨ f = 7#40 ∨ f = 8#40 := by
      intro f member
      have frames : mappedCore.supply = [6#40, 7#40, 8#40] := by decide +kernel
      simpa [frames] using member
    refine ⟨rfl, ⟨by decide +kernel, by decide +kernel, by decide +kernel⟩, ?_, ?_, by decide +kernel⟩
    · intro f member
      rcases supply f member with rfl | rfl | rfl <;>
        exact ⟨by decide +kernel, by decide +kernel, by decide +kernel, by decide +kernel⟩
    · intro f member
      rcases supply f member with rfl | rfl | rfl <;> decide +kernel
  apart inactive := absurd rfl inactive

theorem mapped_bounded : Bounded mappedCore.mem 1#40 := by
  have start : Editable (bootCore.withSupply [3#40, 4#40, 5#40, 6#40, 7#40, 8#40]) 1#40 0#64 :=
    ⟨boot_space mapped_spare, by decide, by decide⟩
  exact mapPage_bounded start start.space start.space.tree.aligned boot_bounded
    (fun f member => (mapped_spare.2 f member).1) (by decide) mappedCore_eq

theorem vmmUnmapPage_correct_mapped : (walk mappedCore.mem 1#40 0#52).map (·.frame) = some 7#40 ∧
    ∃ res m', vmmUnmapPage 0#64 0#64 ⟨mappedCore, [], []⟩ = some (res, m') ∧ walk m'.core.mem 1#40 0#52 = none ∧
      m'.core.freed = mappedCore.freed ++ ([5#40, 4#40, 3#40].filter fun g => Blank m'.core.mem g).map frameAddress := by
  have zero : frameAddress (frameOf 0#64) = 0#64 := by decide
  have path : pathTables mappedCore.mem 1#40 (directories 0#64) mappedCore.supply = [3#40, 4#40, 5#40] := by decide +kernel
  obtain ⟨res, m', done, absent, -, freed, -⟩ := vmmUnmapPage_correct (m := ⟨mappedCore, [], []⟩) zero
    mapped_ready mapped_editable mapped_bounded (by decide) (by decide +kernel)
  refine ⟨by decide +kernel, res, m', done, absent, freed.trans ?_⟩
  rw [show pathTables (Machine.mk mappedCore [] []).core.mem (mappedCore.target 0#64) (directories 0#64)
    mappedCore.supply = [3#40, 4#40, 5#40] from path]
  rfl

/-- The window at the recursive slot shows the tables, so it changes when a table is given back. -/
theorem vmmUnmapPage_changes_window : Ready mappedCore (mappedCore.target 0#64) 2#40 ∧
    Editable mappedCore (mappedCore.target 0#64) 0#64 ∧ Bounded mappedCore.mem (mappedCore.target 0#64) ∧
    canonical (pageNumber 0#64) = true ∧ 3 ≤ mappedCore.supply.length ∧
    ∃ res m', vmmUnmapPage 0#64 0#64 ⟨mappedCore, [], []⟩ = some (res, m') ∧
      pageNumber (window recurseActive [0#9]) ≠ pageNumber 0#64 ∧
      walk m'.core.mem (mappedCore.target 0#64) (pageNumber (window recurseActive [0#9])) ≠
        walk mappedCore.mem (mappedCore.target 0#64) (pageNumber (window recurseActive [0#9])) := by
  refine ⟨mapped_ready, mapped_editable, mapped_bounded, by decide, by decide +kernel, ?_⟩
  have zero : frameAddress (frameOf 0#64) = 0#64 := by decide
  have before : (walk mappedCore.mem 1#40 (pageNumber (window recurseActive [0#9]))).isSome = true := by
    decide +kernel
  have after : (removePage 1#40 0#64 (mappedCore.shut 1#40)).map
      (fun done => (walk done.2.mem 1#40 (pageNumber (window recurseActive [0#9]))).isSome) = some false := by
    decide +kernel
  obtain ⟨⟨⟨⟩, c'⟩, taken, changed⟩ := Option.map_eq_some_iff.mp after
  obtain ⟨res, m', done, core, -⟩ := (vmmUnmapPage_simulates (m := ⟨mappedCore, [], []⟩) zero mapped_ready
    mapped_editable).yields taken
  refine ⟨res, m', done, by decide, ?_⟩
  rw [core]
  intro same
  have there := congrArg Option.isSome same
  exact absurd ((changed.symm.trans there).trans before) (by decide)

end Correctness

end Neutrino.Virtual
