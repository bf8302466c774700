import Neutrino.Virtual.Edits

namespace Neutrino.Virtual

open Library

/-- The slot of the PML4 that a page belongs to. -/
def slotOf (q : PageNumber) : Index := q.extractLsb' 27 9

section Walks

variable {mem mem' : Mem} {t g : Frame} {q : PageNumber} {v : W64}

theorem slotOf_pageNumber (v : W64) : slotOf (pageNumber v) = getPl4Index v :=
  (List.cons.inj (indices_pageNumber v)).1

theorem indices_length (q : PageNumber) : (indices q).length = 4 := rfl

theorem lookup_slot (outside : slotOf q ≠ recurseActive) :
    lookup branches mem t (indices q) = lookup hardware mem t (indices q) := by
  apply lookup_branches
  · intro i rest split _
    rw [← (List.cons.inj split).1]
    exact outside
  · exact Nat.le_refl 4

theorem walk_congr (outside : slotOf q ≠ recurseActive)
    (same : canonical q = true →
      lookup branches mem' t (indices q) = lookup branches mem t (indices q)) :
    walk mem' t q = walk mem t q := by
  unfold walk
  split
  · rename_i inside
    rw [← lookup_slot outside, ← lookup_slot outside, same inside]
  · rfl

theorem directories_append (v : W64) : indices (pageNumber v) = directories v ++ [getTabIndex v] :=
  indices_pageNumber v

theorem canonical_of_walk (mapped : walk mem t q ≠ none) : canonical q = true := by
  by_contra other
  exact mapped (if_neg other)

theorem walk_present (inside : canonical (pageNumber v) = true) (outside : getPl4Index v ≠ recurseActive)
    (place : follow branches mem 3 t (directories v) = some g)
    (present : isPresent (mem g (getTabIndex v)) = true) :
    ∃ above, walk mem t (pageNumber v) =
      some ⟨above ++ [mem g (getTabIndex v)], frameOf (mem g (getTabIndex v))⟩ := by
  obtain ⟨above, found⟩ := lookup_follow place (directories_append v) (List.cons_ne_nil _ _)
  have last : lookup branches mem g [getTabIndex v] = some ([mem g (getTabIndex v)], []) := by
    simp [lookup, branches, hardware, present]
  rw [last, lookup_slot (by rw [slotOf_pageNumber]; exact outside)] at found
  refine ⟨above, ?_⟩
  rw [walk, if_pos inside, found]
  simp [pageFrame]

theorem walk_absent (outside : getPl4Index v ≠ recurseActive)
    (place : follow branches mem 3 t (directories v) = some g)
    (absent : isPresent (mem g (getTabIndex v)) = false) : walk mem t (pageNumber v) = none := by
  obtain ⟨above, found⟩ := lookup_follow place (directories_append v) (List.cons_ne_nil _ _)
  have last : lookup branches mem g [getTabIndex v] = none := by
    simp [lookup, branches, hardware, absent]
  rw [last, lookup_slot (by rw [slotOf_pageNumber]; exact outside)] at found
  rw [walk, found]
  split <;> rfl

end Walks

/-- An address at which the tables of the space can be edited. -/
structure Editable (c : Core) (t : Frame) (v : W64) : Prop where
  space : Space c t
  outside : getPl4Index v ≠ recurseActive
  way : plain c.mem t (directories v) = true

def mapPage (t : Frame) (physAddr virtAddr : W64) (prop : PageProperties) : CoreM Unit := do
  let pt ← descend (superProperties prop) t (directories virtAddr)
  modify fun c => c.withMem (c.mem.write pt (getTabIndex virtAddr) (pageCreate physAddr prop))

section MapPage

variable {c c1 c' : Core} {t r pt : Frame} {v physAddr : W64} {prop : PageProperties} {q : PageNumber}

theorem Editable.start (edit : Editable c t v) : Way c.mem t [] t (directories v) := way_top edit.outside edit.way

theorem Editable.descend (edit : Editable c t v)
    (taken : descend prop t (directories v) c = some (pt, c1)) :
    Grows t c c1 ∧ follow branches c1.mem 3 t (directories v) = some pt :=
  edit.start.descend edit.space taken

section

variable (edit : Editable c t v) (apart : ¬ IsTable c.mem t c.cr3)
include edit apart

theorem Editable.setOther (e : W64) : Editable (c.setOther e) t v where
  space := edit.space.of_follow fun _ _ path => (follow_setOther apart).mp path
  outside := edit.outside
  way := edit.start.rows fun _ => setOther_row apart

theorem Editable.tables_ne {g : Frame} (unused : c.cr3 ∉ c.supply) (grows : Grows t c c1) (table : IsTable c1.mem t g) :
    c.cr3 ≠ g := by
  rintro rfl
  rcases grows.tables edit.space edit.space table with old | new
  · exact apart old
  · exact unused new

theorem Editable.last_ne (unused : c.cr3 ∉ c.supply) (taken : Virtual.descend prop t (directories v) c = some (pt, c1)) :
    pt ≠ c.cr3 := by
  obtain ⟨grows, place⟩ := edit.descend taken
  exact (edit.tables_ne apart unused grows ⟨_, place⟩).symm

end

theorem mapPage_cases (taken : mapPage t physAddr v prop c = some ((), c')) :
    ∃ pt c1, Virtual.descend (superProperties prop) t (directories v) c = some (pt, c1) ∧
      c' = c1.withMem (c1.mem.write pt (getTabIndex v) (pageCreate physAddr prop)) := by
  obtain ⟨pt, c1, first, rest⟩ := bind_some taken
  cases rest
  exact ⟨pt, c1, first, rfl⟩

theorem mapPage_freed (edit : Editable c t v) (taken : mapPage t physAddr v prop c = some ((), c')) :
    c'.freed = c.freed := by
  obtain ⟨pt, c1, first, rfl⟩ := mapPage_cases taken
  exact (edit.descend first).1.other.2.2

theorem mapPage_walk (edit : Editable c t v) (inside : canonical (pageNumber v) = true)
    (taken : mapPage t physAddr v prop c = some ((), c')) :
    ∃ above, walk c'.mem t (pageNumber v) =
      some ⟨above ++ [pageCreate physAddr prop], frameOf physAddr⟩ := by
  obtain ⟨pt, c1, first, rfl⟩ := mapPage_cases taken
  obtain ⟨grows, place⟩ := edit.descend first
  have space := grows.space edit.space edit.space
  have still := (follow_leaf (i := getTabIndex v) (e := pageCreate physAddr prop) space.tree.aligned place
    rfl).mpr place
  have entry : c1.mem.write pt (getTabIndex v) (pageCreate physAddr prop) pt (getTabIndex v) =
      pageCreate physAddr prop := write_self
  obtain ⟨above, found⟩ := walk_present inside edit.outside still (by rw [entry, isPresent_pageCreate])
  rw [entry, frameOf_pageCreate] at found
  exact ⟨above, found⟩

theorem mapPage_other (edit : Editable c t v) (inside : canonical (pageNumber v) = true)
    (space : Space c r) (aligned : Aligned c.mem t r)
    (taken : mapPage t physAddr v prop c = some ((), c')) (other : q ≠ pageNumber v)
    (outside : slotOf q ≠ recurseActive) : walk c'.mem r q = walk c.mem r q := by
  obtain ⟨pt, c1, first, rfl⟩ := mapPage_cases taken
  obtain ⟨grows, place⟩ := edit.descend first
  apply walk_congr outside
  intro here
  have before := grows.aligned edit.space space aligned
  refine (lookup_leaf before place rfl (indices_length q) ?_).trans
    (grows.lookup_eq edit.space space aligned (indices_length q))
  intro same
  exact other (indices_injective here inside (same.trans (directories_append v).symm))

theorem mapPage_space (edit : Editable c t v) (space : Space c r) (aligned : Aligned c.mem t r)
    (taken : mapPage t physAddr v prop c = some ((), c')) : Space c' r := by
  obtain ⟨pt, c1, first, rfl⟩ := mapPage_cases taken
  obtain ⟨grows, place⟩ := edit.descend first
  apply (grows.space edit.space space).of_follow
  intro xs f path
  exact (follow_leaf (grows.aligned edit.space space aligned) place rfl).mp path

theorem mapPage_total (enough : 3 ≤ c.supply.length) :
    ∃ c', mapPage t physAddr v prop c = some ((), c') ∧ c.supply.length ≤ c'.supply.length + 3 := by
  have long : (directories v).length ≤ c.supply.length := enough
  obtain ⟨pt, c1, first, fewer⟩ := descend_total (superProperties prop) t long
  refine ⟨c1.withMem (c1.mem.write pt (getTabIndex v) (pageCreate physAddr prop)), ?_, fewer⟩
  simp only [mapPage, Bind.bind, StateT.bind, first, Option.bind]
  rfl

end MapPage

section Simulation

variable {m : Machine} {x : Index} {t mirror : Frame} {v physAddr table : W64} {prop : PageProperties}

theorem vmmMapPageImpl_simulates (gate : Gate m.core x t) (backed : Backed m.core mirror) (edit : Editable m.core t v) :
    Simulates Machine.core m (vmmMapPageImpl (window x []) physAddr v prop) (mapPage t physAddr v prop)
      fun _ _ m' => Orderly x t (directories v) m m' := by
  have nested := vmmGetMostNestedTable_simulates gate backed edit.space edit.outside edit.way prop
  refine nested.bind ?_
  rintro _ pt m1 taken ⟨rfl, orderly⟩
  obtain ⟨grows, place⟩ := edit.descend taken
  have reaches := reaches_window (gate.grows backed.unused grows) place
  have space := grows.space edit.space edit.space
  have stored := store_entry reaches (getTabIndex v) (pageCreate physAddr prop)
  refine Yields.of_eq stored ⟨rfl, orderly.trans ?_⟩
  refine (traced_used m1 _ pt _).orderly gate.slot ?_ List.prefix_rfl (Nat.le_refl 3) place
  intro ys f _ path
  exact (follow_leaf space.tree.aligned place rfl).mp path

theorem mapPage_setOther {c : Core} (edit : Editable c t v) (apart : ¬ IsTable c.mem t c.cr3)
    (unused : c.cr3 ∉ c.supply) (e : W64) : mapPage t physAddr v prop (c.setOther e) =
      (mapPage t physAddr v prop c).map fun done => (done.1, done.2.setOther e) := by
  have swap : descend (superProperties prop) t (directories v) (c.setOther e) =
      (descend (superProperties prop) t (directories v) c).map fun done => (done.1, done.2.setOther e) :=
    descend_setOther edit.space edit.start apart unused
  simp only [mapPage, Bind.bind, StateT.bind, swap]
  cases taken : descend (superProperties prop) t (directories v) c with
  | none => rfl
  | some done =>
    obtain ⟨pt, c1⟩ := done
    obtain ⟨same, -⟩ := (edit.descend taken).1.other
    have other : c1.cr3 ≠ pt := by
      rw [same]
      exact (edit.last_ne apart unused taken).symm
    refine congrArg (fun mem => some ((), c1.withMem mem)) ?_
    exact write_comm other

theorem mapPage_links {c c' : Core} {i : Index} {h : Frame} (edit : Editable c t v)
    (apart : ¬ IsTable c.mem t c.cr3) (unused : c.cr3 ∉ c.supply) (links : Links c.mem c.cr3 i h)
    (taken : mapPage t physAddr v prop c = some ((), c')) : c'.cr3 = c.cr3 ∧ Links c'.mem c.cr3 i h := by
  obtain ⟨pt, c1, first, rfl⟩ := mapPage_cases taken
  obtain ⟨grows, -⟩ := edit.descend first
  obtain ⟨same, -⟩ := grows.other
  have other := edit.last_ne apart unused first
  exact ⟨same, (grows.links unused links).congr (write_of_ne fun both => other both.1.symm)⟩

/-- A function that edits a space by `op` through its window: the active space at its own, another one through the other slot. -/
theorem edit_simulates {α β : Type} {op : CoreM Unit} {rest : α → VmmM β} {addr : W64} {known : Prop} (impl : W64 → VmmM α)
    (aligned : frameAddress (frameOf table) = table) (here : m.core.target table = t) (ready : Ready m.core t mirror)
    (edit : Editable m.core t v)
    (swap : ∀ {c : Core}, Editable c t v → ¬ IsTable c.mem t c.cr3 → c.cr3 ∉ c.supply → ∀ e,
      op (c.setOther e) = (op c).map fun done => (done.1, done.2.setOther e))
    (links : ∀ {c c' : Core} {i : Index} {h : Frame}, Editable c t v → ¬ IsTable c.mem t c.cr3 → c.cr3 ∉ c.supply →
      Links c.mem c.cr3 i h → op c = some ((), c') → c'.cr3 = c.cr3 ∧ Links c'.mem c.cr3 i h)
    (simulates : ∀ {n : Machine} {x : Index}, Gate n.core x t → Backed n.core mirror → Editable n.core t v →
      (t ≠ n.core.cr3 → ¬ IsTable n.core.mem t n.core.cr3) →
      Simulates Machine.core n (impl (window x [])) op fun _ _ n' => Orderly x t (directories v) n n')
    (finish : ∀ a n, Yields n (rest a) fun _ n' => n'.core = n.core ∧ Silent n n')
    (opened : ¬ IsTable m.core.mem t m.core.cr3 → known → ∀ m1, Silent m m1 → (∀ h, (pageNumber addr, h) ∉ m1.tlb) →
      m1.core = m.core.setOther (pageCreate table prop) → Coherent m1 t (directories v)) :
    Simulates Machine.core m
      (if frameAddress m.core.cr3 = table ∨ table = 0#64 then (do let a ← impl vmmGetActiveRecurseLink; rest a)
        else do
          store otherSlot (pageCreate table prop)
          vmmReloadTlb addr
          let a ← impl vmmGetOtherRecurseLink
          store otherSlot 0#64
          rest a)
      (do modify (·.shut t); op)
      fun _ _ m' => (t ≠ m.core.cr3 → known) → (t = m.core.cr3 → gatePath (directories v) = false) → Exact t m m' := by
  have begun : (do modify (·.shut t); op : CoreM Unit) m.core = op (m.core.shut t) := rfl
  have cond := active_iff (m := m) aligned
  rw [here] at cond
  by_cases active : t = m.core.cr3
  · rw [if_pos (cond.mpr active), activeLink_eq]
    rw [Core.shut, if_pos active] at begun
    have gate : Gate m.core recurseActive t := by
      subst active
      exact ready.gate_active
    refine Simulates.congr ((simulates gate ready.backed edit ready.apart).finish ?_) begun
    intro a _ m1 _ orderly
    refine (finish a m1).mono ?_
    rintro _ m2 ⟨core, silent⟩
    refine ⟨core, fun _ outside => ?_⟩
    exact (orderly ⟨fun same => absurd same (by decide), fun _ => outside active⟩).1.trans silent.exact
  · rw [if_neg (mt cond.mp active), otherLink_eq]
    rw [Core.shut, if_neg active] at begun
    have apart := ready.apart active
    have unused := ready.backed.unused
    have there := edit.setOther apart (pageCreate table prop)
    refine Simulates.congr ((other_simulates (Orderly recurseOther t (directories v)) ready.active
      (swap edit apart unused) ?_ ?_ finish).mono ?_) begun
    · intro m1 core
      have place := target_eq (c := m.core) aligned (by rwa [here])
      rw [here] at place
      have gate := ready.gate_other place prop
      have backed : Backed (m.core.setOther (pageCreate table prop)) mirror := ready.backed.setOther
      have below : t ≠ m1.core.cr3 → ¬ IsTable m1.core.mem t m1.core.cr3 := by
        rw [core]
        exact fun _ => setOther_apart apart
      rw [← core] at gate backed there
      exact simulates gate backed there below
    · intro _ c taken
      have kept := links there (setOther_apart apart) unused (setOther_links ready.active (by decide)) taken
      exact kept
    · rintro _ _ m' - ⟨m1, m2, before, gone, core, orderly, after⟩ coherent -
      have coherent := opened apart (coherent active) m1 before gone core
      exact (before.exact.trans (orderly ⟨fun _ => coherent, fun same => absurd same (by decide)⟩).1).trans after.exact

theorem vmmMapPage_simulates (physAddr : W64) (prop : PageProperties)
    (aligned : frameAddress (frameOf table) = table)
    (ready : Ready m.core (m.core.target table) mirror) (edit : Editable m.core (m.core.target table) v) :
    Simulates Machine.core m (vmmMapPage table physAddr v prop)
      (do modify (·.shut (m.core.target table)); mapPage (m.core.target table) physAddr v prop)
      fun _ _ m' => (m.core.target table ≠ m.core.cr3 → CoherentBelow m (m.core.target table) (directories v)) →
        (m.core.target table = m.core.cr3 → gatePath (directories v) = false) → Exact (m.core.target table) m m' := by
  have asked : readCr3 m = some (frameAddress m.core.cr3, m) := rfl
  unfold vmmMapPage
  refine .after asked rfl ?_
  refine edit_simulates (fun link => vmmMapPageImpl link physAddr v prop) aligned rfl ready edit mapPage_setOther
    mapPage_links (fun gate backed there _ => vmmMapPageImpl_simulates gate backed there) ?_ ?_
  · intro _ n
    exact (vmmReloadTlb_yields v).mono fun _ _ holds => ⟨holds.1, holds.2.1⟩
  · intro apart below m1 before gone core
    rw [otherLink_eq] at gone
    exact below.coherent apart (Nat.le_refl 3) before core gone

end Simulation

section Correctness

variable {m : Machine} {c c' : Core} {t mirror : Frame} {v physAddr table : W64} {prop : PageProperties}
  {q : PageNumber}

theorem Editable.shut (edit : Editable c t v) (apart : t ≠ c.cr3 → ¬ IsTable c.mem t c.cr3) :
    Editable (c.shut t) t v := by
  unfold Core.shut
  split
  · exact edit
  · rename_i inactive
    exact edit.setOther (apart inactive) 0#64

theorem walk_shut (apart : t ≠ c.cr3 → ¬ IsTable c.mem t c.cr3) (outside : slotOf q ≠ recurseActive) :
    walk (c.shut t).mem t q = walk c.mem t q := by
  unfold Core.shut
  split
  · rfl
  · rename_i inactive
    apply walk_congr outside
    intro _
    apply lookup_row _ (indices_length q)
    intro g table
    funext j
    apply write_of_ne
    rintro ⟨rfl, -⟩
    exact apart inactive table

theorem shut_supply : (c.shut t).supply = c.supply := by
  unfold Core.shut
  split <;> rfl

theorem mapPage_closed (edit : Editable c t v) (ready : Ready c t mirror) (inactive : t ≠ c.cr3)
    (taken : mapPage t physAddr v prop (c.shut t) = some ((), c')) :
    c'.mem c.cr3 recurseOther = 0#64 := by
  rw [Core.shut, if_neg inactive, mapPage_setOther edit (ready.apart inactive) ready.backed.unused] at taken
  obtain ⟨⟨⟨⟩, d⟩, before, same⟩ := Option.map_eq_some_iff.mp taken
  obtain ⟨pt, c1, first, rfl⟩ := mapPage_cases before
  obtain ⟨root, -⟩ := (edit.descend first).1.other
  rw [← (Prod.mk.inj same).2, Core.setOther, ← root]
  exact write_self

/-- The tables of a kernel that has mapped nothing but the mirror of the physical memory. -/
def bootMem : Mem := fun g i =>
  if g = 1#40 ∧ i = recurseActive then pageCreate (frameAddress 1#40) pageKernelWrite
  else if g = 1#40 ∧ i = permSlot then pageCreate (frameAddress 2#40) pageKernelWrite
  else if g = 2#40 then pagePdptHuge (i.setWidth 64 <<< 30) pageKernelWrite
  else 0#64

def bootCore : Core := ⟨bootMem, 1#40, true, [3#40, 4#40, 5#40], []⟩

theorem boot_tables {xs : List Index} {f : Frame} (path : follow branches bootMem 3 1#40 xs = some f) :
    xs = [] ∧ f = 1#40 ∨ xs = [permSlot] ∧ f = 2#40 := by
  cases xs with
  | nil =>
    cases path
    exact .inl ⟨rfl, rfl⟩
  | cons i xs =>
    obtain ⟨h, here, rest⟩ := follow_cons_some path
    obtain ⟨links, -, -, outside⟩ := branches_table here
    have slots : ∀ i, isPresent (bootMem 1#40 i) = true → i = recurseActive ∨ i = permSlot := by
      decide +kernel
    rcases slots i links.present with rfl | rfl
    · exact absurd ⟨rfl, rfl⟩ outside
    · have mirror : h = 2#40 := by
        rw [← links.frame]
        decide
      subst mirror
      cases xs with
      | nil =>
        cases rest
        exact .inr ⟨rfl, rfl⟩
      | cons j xs =>
        obtain ⟨k, there, -⟩ := follow_cons_some rest
        have huge : ∀ j, isHuge (bootMem 2#40 j) = true := by decide +kernel
        have small := (branches_table there).1.small
        rw [huge] at small
        cases small

/-- The frames that a boot state may be given. -/
def Spare (supply : List Frame) : Prop :=
  supply.Nodup ∧ ∀ f ∈ supply, f.toNat < 2 ^ 27 ∧ f ≠ 1#40 ∧ f ≠ 2#40

theorem boot_space {supply : List Frame} (spare : Spare supply) : Space (bootCore.withSupply supply) 1#40 where
  tree xs ys f first second := by
    rcases boot_tables first with ⟨rfl, rfl⟩ | ⟨rfl, rfl⟩
    · rcases boot_tables second with ⟨rfl, -⟩ | ⟨-, same⟩
      · rfl
      · exact absurd same (by decide)
    · rcases boot_tables second with ⟨-, same⟩ | ⟨rfl, -⟩
      · exact absurd same (by decide)
      · rfl
  fresh f member := by
    rintro ⟨xs, path⟩
    rcases boot_tables path with ⟨-, same⟩ | ⟨-, same⟩
    · exact (spare.2 f member).2.1 same
    · exact (spare.2 f member).2.2 same
  nodup := spare.1

theorem boot_mirrored {f : Frame} (small : f.toNat < 2 ^ 27) : Mirrored bootMem 2#40 f := by
  have entries : ∀ i : Index, isPresent (bootMem 2#40 i) = true ∧ isHuge (bootMem 2#40 i) = true ∧
      (frameOf (bootMem 2#40 i)).extractLsb' 18 22 = i.setWidth 22 := by decide +kernel
  obtain ⟨present, huge, frame⟩ := entries (f.extractLsb' 18 9)
  refine ⟨small, present, huge, ?_⟩
  rw [frame]
  apply BitVec.eq_of_toNat_eq
  simp only [BitVec.toNat_setWidth, BitVec.extractLsb'_toNat, Nat.shiftRight_eq_div_pow]
  omega

theorem boot_active : Links bootMem 1#40 recurseActive 1#40 := ⟨by decide, by decide, by decide⟩

theorem boot_perm : Links bootMem 1#40 permSlot 2#40 := ⟨by decide, by decide, by decide⟩

theorem boot_ready {supply : List Frame} (spare : Spare supply) :
    Ready (bootCore.withSupply supply) 1#40 2#40 where
  active := boot_active
  backed := by
    have below : 2#40 ≠ 1#40 := by decide
    exact ⟨rfl, boot_perm, fun f member => boot_mirrored (spare.2 f member).1,
      fun f member => (spare.2 f member).2, below⟩
  apart inactive := absurd rfl inactive

theorem boot_spare : Spare bootCore.supply := by
  refine ⟨by decide, ?_⟩
  simp [bootCore]

theorem boot_editable : Editable bootCore 1#40 0#64 := ⟨boot_space boot_spare, by decide, by decide⟩

theorem vmmMapPage_correct (physAddr : W64) (prop : PageProperties)
    (aligned : frameAddress (frameOf table) = table)
    (ready : Ready m.core (m.core.target table) mirror) (edit : Editable m.core (m.core.target table) v)
    (inside : canonical (pageNumber v) = true) (enough : 3 ≤ m.core.supply.length) :
    ∃ m', vmmMapPage table physAddr v prop m = some ((), m') ∧
      (∃ above, walk m'.core.mem (m.core.target table) (pageNumber v) =
        some ⟨above ++ [pageCreate physAddr prop], frameOf physAddr⟩) ∧
      (∀ q, q ≠ pageNumber v → slotOf q ≠ recurseActive →
        walk m'.core.mem (m.core.target table) q = walk m.core.mem (m.core.target table) q) ∧
      Tree m'.core.mem (m.core.target table) ∧
      (∀ r, Space m.core r → Aligned m.core.mem (m.core.target table) r → Tree m'.core.mem r) ∧
      (m.core.target table ≠ m.core.cr3 → m'.core.mem m.core.cr3 recurseOther = 0#64) := by
  have there := edit.shut ready.apart
  rw [← shut_supply (t := m.core.target table)] at enough
  obtain ⟨c', taken, -⟩ := @mapPage_total _ (m.core.target table) v physAddr prop enough
  obtain ⟨⟨⟩, m', done, core, -⟩ := (vmmMapPage_simulates physAddr prop aligned ready edit).yields taken
  refine ⟨m', done, ?_⟩
  rw [core]
  refine ⟨mapPage_walk there inside taken, ?_, ?_, ?_, fun inactive => mapPage_closed edit ready inactive taken⟩
  · intro q other outside
    rw [mapPage_other there inside there.space there.space.tree.aligned taken other outside,
      walk_shut ready.apart outside]
  · exact (mapPage_space there there.space there.space.tree.aligned taken).tree
  · intro r space shared
    exact (mapPage_space there (space.shut _) (shared.shut _) taken).tree

theorem vmmMapPage_correct_boot : ∃ m', vmmMapPage 0#64 0x7000#64 0#64 pageKernelWrite ⟨bootCore, [], []⟩ =
      some ((), m') ∧
    ∃ above, walk m'.core.mem 1#40 0#52 = some ⟨above ++ [pageCreate 0x7000#64 pageKernelWrite], 7#40⟩ := by
  have zero : frameAddress (frameOf 0#64) = 0#64 := by decide
  obtain ⟨m', done, found, -⟩ := vmmMapPage_correct (m := ⟨bootCore, [], []⟩) 0x7000#64 pageKernelWrite zero
    (boot_ready boot_spare) boot_editable (by decide) (by decide)
  exact ⟨m', done, found⟩

/-- The window at the recursive slot shows the tables, so it changes when a table is created. -/
theorem vmmMapPage_changes_window : Ready bootCore (bootCore.target 0#64) 2#40 ∧
    Editable bootCore (bootCore.target 0#64) 0#64 ∧ canonical (pageNumber 0#64) = true ∧
    3 ≤ bootCore.supply.length ∧
    ∃ m', vmmMapPage 0#64 0x7000#64 0#64 pageKernelWrite ⟨bootCore, [], []⟩ = some ((), m') ∧
      pageNumber (window recurseActive [0#9]) ≠ pageNumber 0#64 ∧
      walk m'.core.mem (bootCore.target 0#64) (pageNumber (window recurseActive [0#9])) ≠
        walk bootCore.mem (bootCore.target 0#64) (pageNumber (window recurseActive [0#9])) := by
  refine ⟨boot_ready boot_spare, boot_editable, by decide, by decide, ?_⟩
  have zero : frameAddress (frameOf 0#64) = 0#64 := by decide
  have before : walk bootCore.mem 1#40 (pageNumber (window recurseActive [0#9])) = none := by
    decide +kernel
  have after : (mapPage 1#40 0x7000#64 0#64 pageKernelWrite (bootCore.shut 1#40)).map
      (fun done => (walk done.2.mem 1#40 (pageNumber (window recurseActive [0#9]))).isSome) = some true := by
    decide +kernel
  obtain ⟨⟨⟨⟩, c'⟩, taken, changed⟩ := Option.map_eq_some_iff.mp after
  obtain ⟨⟨⟩, m', done, core, -⟩ :=
    (vmmMapPage_simulates (m := ⟨bootCore, [], []⟩) 0x7000#64 pageKernelWrite zero (boot_ready boot_spare)
      boot_editable).yields taken
  refine ⟨m', done, by decide, ?_⟩
  rw [core]
  intro same
  have there : walk c'.mem 1#40 (pageNumber (window recurseActive [0#9])) = none := same.trans before
  rw [there] at changed
  cases changed

end Correctness

end Neutrino.Virtual
