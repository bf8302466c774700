import Neutrino.Virtual.Creation

namespace Neutrino.Virtual

open Library Relation

/-- Spaces that share a table share the PML4 entry above it. -/
def Branched (mem : Mem) (roots : Set Frame) : Prop :=
  ∀ r ∈ roots, ∀ r' ∈ roots, ∀ j xs h, follow branches mem 3 r (j :: xs) = some h →
    follow branches mem 3 r' (j :: xs) = some h → follow branches mem 3 r [j] = follow branches mem 3 r' [j]

section Branched

variable {mem mem' : Mem} {roots ram : Set Frame} {c c' : Core} {mirror t r r' f g h : Frame} {i j : Index}
  {xs : List Index}

theorem follow_first (path : follow branches mem 3 r (j :: xs) = some h) :
    ∃ k, follow branches mem 3 r [j] = some k ∧ follow branches mem 2 k xs = some h := by
  obtain ⟨k, here, rest⟩ := follow_cons_some path
  exact ⟨k, by rw [follow_cons here]; rfl, rest⟩

theorem follow_shared (same : follow branches mem 3 r [j] = follow branches mem 3 r' [j])
    (path : follow branches mem 3 r (j :: xs) = some h) : follow branches mem 3 r' (j :: xs) = some h := by
  obtain ⟨k, first, rest⟩ := follow_first path
  have split : j :: xs = [j] ++ xs := rfl
  rw [split, follow_append (same.symm.trans first)]
  exact rest

theorem Branched.of_follow (branched : Branched mem roots)
    (old : ∀ r ∈ roots, ∀ xs f, follow branches mem' 3 r xs = some f → follow branches mem 3 r xs = some f) :
    Branched mem' roots := by
  intro r member r' member' j xs h first second
  obtain ⟨k, here, -⟩ := follow_first first
  obtain ⟨k', there, -⟩ := follow_first second
  have same := branched r member r' member' j xs h (old r member _ _ first) (old r' member' _ _ second)
  rw [old r member _ _ here, old r' member' _ _ there] at same
  rw [here, there, same]

theorem Branched.single (mem : Mem) (r : Frame) : Branched mem {r} := by
  rintro s rfl s' rfl j xs h _ _
  rfl

variable (family : Family c roots ram mirror) (branched : Branched c.mem roots)
include family branched

theorem Family.linked_branched (member : t ∈ roots) (linked : Linked t c c') : Branched c'.mem roots := by
  have target := family.space member
  have kept : ∀ {r xs f}, r ∈ roots → follow branches c.mem 3 r xs = some f →
      follow branches c'.mem 3 r xs = some f :=
    fun root path => linked.follow_eq target (family.space root) path
  -- what is shared before the step is shared after it
  have same : ∀ {r r' j xs h}, r ∈ roots → r' ∈ roots → follow branches c.mem 3 r (j :: xs) = some h →
      follow branches c.mem 3 r' (j :: xs) = some h →
      follow branches c'.mem 3 r [j] = follow branches c'.mem 3 r' [j] := by
    intro r r' j xs h root root' first second
    obtain ⟨k, here, -⟩ := follow_first first
    have there := (branched r root r' root' j xs h first second).symm.trans here
    rw [kept root here, kept root' there]
  intro r root r' root' j xs h first second
  cases linked with
  | @intro ys g f i rest prop place high absent taken =>
    have grown : Grown branches c.mem (c.link g i f prop rest).mem g i f :=
      grown_link absent (target.apart place taken)
    have fresh : ∀ {r}, r ∈ roots → ∀ ys, follow branches c.mem 3 r ys ≠ some f :=
      fun {r} inside ys path => (family.stocked f (first_mem taken)).2 r inside ⟨ys, path⟩
    rcases grown.follow_cases (fresh root) first with old | ⟨rfl, zs, split, up⟩
    · rcases grown.follow_cases (fresh root') second with old' | ⟨rfl, -⟩
      · exact same root root' old old'
      · exact absurd old (fresh root _)
    · rcases grown.follow_cases (fresh root') second with old' | ⟨-, zs', split', up'⟩
      · exact absurd old' (fresh root' _)
      · -- the new table hangs below one that the two spaces share
        rw [split] at split'
        cases List.append_cancel_right split'
        cases zs with
        | nil =>
          cases up
          cases up'
          rfl
        | cons k zs =>
          cases split
          exact same root root' up up'

theorem Family.edit_branched (member : t ∈ roots) (edit : Edit t c c') : Branched c'.mem roots := by
  cases edit with
  | link linked => exact family.linked_branched branched member linked
  | leaf place last i e =>
    exact branched.of_follow fun r root xs f path => (follow_leaf (family.aligned member root) place last).mp path
  | drop => exact branched.of_follow fun r _ xs f path => (clear_fewer c _ _).follow path
  | close => exact branched.of_follow fun r _ xs f path => follow_close path

theorem Family.edits_branched (member : t ∈ roots) (edits : Edits t c c') : Branched c'.mem roots := by
  induction edits with
  | refl => exact branched
  | tail before edit ih => exact (family.edits member before).edit_branched ih member edit

theorem Family.adopt_branched (fresh : ∀ r ∈ roots, ¬ IsTable c.mem r f) :
    Branched (c.adopt f).mem (insert f roots) := by
  -- below its PML4 the new space is the active one
  have source : ∀ {r j xs h}, r ∈ insert f roots → follow branches (c.adopt f).mem 3 r (j :: xs) = some h →
      ∃ s ∈ roots, follow branches c.mem 3 s (j :: xs) = some h ∧
        follow branches (c.adopt f).mem 3 r [j] = follow branches c.mem 3 s [j] := by
    intro r j xs h member path
    obtain ⟨k, first, -⟩ := follow_first path
    rcases member with rfl | root
    · exact ⟨c.cr3, family.active, (family.adopt_below fresh path).2,
        first.trans (family.adopt_below fresh first).2.symm⟩
    · exact ⟨r, root, (adopt_follow (fresh r root)).mp path,
        first.trans ((adopt_follow (fresh r root)).mp first).symm⟩
  intro r member r' member' j xs h first second
  obtain ⟨s, root, path, same⟩ := source member first
  obtain ⟨s', root', path', same'⟩ := source member' second
  rw [same, same', branched s root s' root' j xs h path path']

end Branched

/-- The frames in use: those marked before, and those taken from `stock` since. None of them has
    been given back. -/
structure Accounted (used roots : Set Frame) (stock : List Frame) (c : Core) : Prop where
  below : c.supply ⊆ stock
  tables : ∀ r ∈ roots, ∀ h, IsTable c.mem r h → h ∈ used ∨ h ∈ stock ∧ h ∉ c.supply
  freed : ∀ a ∈ c.freed, frameOf a ∉ c.supply ∧ ∀ r ∈ roots, ¬ IsTable c.mem r (frameOf a)
  known : ∀ a ∈ c.freed, frameOf a ∈ used ∨ frameOf a ∈ stock

section Accounted

variable {used roots ram : Set Frame} {stock : List Frame} {c c' : Core} {mirror t r f g h : Frame} {i : Index}
  {xs : List Index}

theorem Accounted.of_follow (accounted : Accounted used roots stock c) (supply : c'.supply = c.supply)
    (freed : c'.freed = c.freed)
    (old : ∀ r ∈ roots, ∀ xs f, follow branches c'.mem 3 r xs = some f → follow branches c.mem 3 r xs = some f) :
    Accounted used roots stock c' where
  below := by
    rw [supply]
    exact accounted.below
  tables := by
    rintro r root h ⟨xs, path⟩
    rw [supply]
    exact accounted.tables r root h ⟨xs, old r root xs h path⟩
  freed a member := by
    rw [freed] at member
    rw [supply]
    obtain ⟨spare, gone⟩ := accounted.freed a member
    refine ⟨spare, ?_⟩
    rintro r root ⟨xs, path⟩
    exact gone r root ⟨xs, old r root xs _ path⟩
  known := by
    rw [freed]
    exact accounted.known

theorem shut_follow (path : follow branches (c.shut t).mem 3 r xs = some f) :
    follow branches c.mem 3 r xs = some f := by
  unfold Core.shut at path
  split at path
  · exact path
  · exact follow_close path

theorem Accounted.shut (accounted : Accounted used roots stock c) (t : Frame) :
    Accounted used roots stock (c.shut t) := by
  refine accounted.of_follow shut_supply ?_ fun _ _ _ _ path => shut_follow path
  unfold Core.shut
  split <;> rfl

theorem shut_links (links : Links (c.shut t).mem g i h) : Links c.mem g i h := by
  unfold Core.shut at links
  split at links
  · exact links
  · refine links.congr (write_of_ne ?_).symm
    rintro ⟨rfl, rfl⟩
    have present := links.present
    have zero : (c.setOther 0#64).mem c.cr3 recurseOther = 0#64 := write_self
    rw [zero, isPresent_zero] at present
    cases present

variable (family : Family c roots ram mirror) (member : t ∈ roots)
include family member

theorem Family.dropped (branched : Branched c.mem roots) (place : follow branches c.mem 3 t xs = some g)
    (high : xs.length ≤ 2) (outside : xs = [] → i ≠ recurseActive) (links : Links c.mem g i h)
    (spared : xs = [] → ∀ r ∈ roots, r ≠ t → ¬ Links c.mem r i h) (root : r ∈ roots) :
    ¬ IsTable (c.clear g i).mem r h := by
  rintro ⟨ys, path⟩
  have below := follow_links place high outside links
  have before := (clear_fewer c g i).follow path
  cases family.separated.path root member before below
  obtain ⟨k, above, found⟩ := follow_snoc_some path
  have present := (branches_table found).1.present
  have above' := (clear_fewer c g i).follow above
  cases xs with
  | nil =>
    cases above
    cases place
    by_cases same : r = t
    · subst same
      rw [clear_absent] at present
      cases present
    · have linked := (branches_table found).1
      exact spared rfl r root same (linked.congr (clear_fewer c t i r i present).symm)
  | cons j zs =>
    have shared := branched r root t member j (zs ++ [i]) h before below
    have same := follow_shared shared above'
    rw [place] at same
    cases same
    rw [clear_absent] at present
    cases present

theorem Family.accounted_linked (accounted : Accounted used roots stock c) (linked : Linked t c c') :
    Accounted used roots stock c' := by
  cases linked with
  | @intro ys g f i rest prop place high absent taken =>
    have grown : Grown branches c.mem (c.link g i f prop rest).mem g i f :=
      grown_link absent ((family.space member).apart place taken)
    have before : ∀ {r h}, r ∈ roots → IsTable (c.link g i f prop rest).mem r h → IsTable c.mem r h ∨ h = f := by
      rintro r h root ⟨xs, path⟩
      rcases grown.follow_cases (fun ys reached => (family.stocked f (first_mem taken)).2 r root ⟨ys, reached⟩)
        path with old | ⟨new, -⟩
      · exact .inl ⟨xs, old⟩
      · exact .inr new
    have nodup := family.nodup
    rw [taken, List.nodup_cons] at nodup
    have fewer : rest ⊆ c.supply := by
      rw [taken]
      exact List.subset_cons_self f rest
    refine ⟨List.Subset.trans fewer accounted.below, ?_, ?_, accounted.known⟩
    · intro r root h table
      rcases before root table with old | rfl
      · rcases accounted.tables r root h old with marked | ⟨inside, gone⟩
        · exact .inl marked
        · exact .inr ⟨inside, fun left => gone (fewer left)⟩
      · exact .inr ⟨accounted.below (first_mem taken), nodup.1⟩
    · intro a given
      obtain ⟨spare, gone⟩ := accounted.freed a given
      refine ⟨fun left => spare (fewer left), fun r root table => ?_⟩
      rcases before root table with old | new
      · exact gone r root old
      · rw [new] at spare
        exact spare (first_mem taken)

theorem Family.accounted_grows (accounted : Accounted used roots stock c) (grows : Grows t c c') :
    Accounted used roots stock c' := by
  induction grows with
  | refl => exact accounted
  | tail before linked ih => exact (family.edits member (Grows.edits before)).accounted_linked member ih linked

theorem Family.accounted_reclaim (branched : Branched c.mem roots) (accounted : Accounted used roots stock c)
    (place : follow branches c.mem 3 t xs = some g) (high : xs.length ≤ 2)
    (outside : xs = [] → i ≠ recurseActive) (links : Links c.mem g i h)
    (spared : xs = [] → Vacant c.mem h → ∀ r ∈ roots, r ≠ t → ¬ Links c.mem r i h) :
    Accounted used roots stock (c.reclaim h g i) := by
  unfold Core.reclaim
  split
  · rename_i vacant
    have cleared : Accounted used roots stock (c.clear g i) :=
      accounted.of_follow rfl rfl fun r _ xs f path => (clear_fewer c g i).follow path
    have below := follow_links place high outside links
    have frame : frameOf (getPhysicalAddress (c.mem g i)) = h := (frameOf_getPhysicalAddress _).trans links.frame
    refine ⟨cleared.below, cleared.tables, fun a given => ?_, fun a given => ?_⟩
    · rcases List.mem_append.mp given with old | new
      · exact cleared.freed a old
      · cases List.mem_singleton.mp new
        rw [frame]
        refine ⟨fun left => (family.stocked h left).2 t member ⟨_, below⟩, fun r root => ?_⟩
        exact family.dropped member branched place high outside links (fun top => spared top vacant) root
    · rcases List.mem_append.mp given with old | new
      · exact cleared.known a old
      · cases List.mem_singleton.mp new
        rw [frame]
        exact (accounted.tables t member h ⟨_, below⟩).imp_right And.left
  · exact accounted

theorem Family.accounted_leaf (accounted : Accounted used roots stock c)
    (place : follow branches c.mem 3 t xs = some g) (last : xs.length = 3) (e : W64) :
    Accounted used roots stock (c.withMem (c.mem.write g i e)) :=
  accounted.of_follow rfl rfl fun _ root _ _ path =>
    (follow_leaf (family.aligned member root) place last).mp path

end Accounted

/-- Below the table `g` there is nothing but the page that the path leads to. -/
def Solely (mem : Mem) (last : Index) : Frame → List Index → Prop
  | g, [] => ∀ j, j ≠ last → isEntry (mem g j) = false
  | g, i :: rest => (∀ j, j ≠ i → isEntry (mem g j) = false) ∧
    (isEntry (mem g i) = true → Solely mem last (frameOf (mem g i)) rest)

/-- The unmapping of `v` takes no table away below a PML4 entry that another space has too. -/
def Spares (mem : Mem) (roots : Set Frame) (t : Frame) (v : W64) : Prop :=
  ∀ r ∈ roots, r ≠ t → ∀ h, Links mem t (getPl4Index v) h → Links mem r (getPl4Index v) h →
    ¬ Solely mem (getTabIndex v) h [getDptIndex v, getDirIndex v]

section Solely

variable {mem mem' : Mem} {c c' : Core} {t t1 t2 t3 g parent : Frame} {v : W64} {i last : Index}
  {xs ys : List Index}

theorem reclaim_vacant (vacant : Vacant (c.reclaim g parent i).mem parent) :
    (∀ j, j ≠ i → isEntry (c.mem parent j) = false) ∧ (isEntry (c.mem parent i) = true → Vacant c.mem g) := by
  refine ⟨fun j other => ?_, fun entry => ?_⟩
  · rw [← vacant j, reclaim_of_ne fun both => other both.2]
  · by_contra kept
    have empty := vacant i
    rw [reclaim_mem, if_neg kept, entry] at empty
    cases empty

theorem vacant_solely (chain : Chain c.mem v t t1 t2 t3) (outside : getPl4Index v ≠ recurseActive)
    (tree : Tree c.mem t) (vacant : Vacant (c.cut3 v t1 t2 t3).mem t1) :
    Solely c.mem (getTabIndex v) t1 [getDptIndex v, getDirIndex v] := by
  obtain ⟨⟨row2, -, -⟩, ⟨row1, -⟩, -⟩ := cut_entries chain outside tree
  obtain ⟨others1, below1⟩ := reclaim_vacant vacant
  rw [row1] at others1 below1
  refine ⟨others1, fun entry => ?_⟩
  obtain ⟨others2, below2⟩ := reclaim_vacant (below1 entry)
  rw [row2] at others2 below2
  rw [chain.second.frame]
  refine ⟨others2, fun entry => ?_⟩
  rw [chain.third.frame]
  intro j other
  rw [← below2 entry j, Core.cut1, clear_of_ne fun both => other both.2]

theorem isEntry_present {e : W64} (entry : isEntry e = true) : isPresent e = true := by
  rw [isEntry, Bool.and_eq_true] at entry
  exact entry.1

theorem Solely.of_kept (kept : ∀ g j, IsTable mem t g → isEntry (mem g j) = true → mem' g j = mem g j)
    (reached : follow branches mem 3 t xs = some g) (below : xs ≠ []) (short : xs.length + ys.length ≤ 3)
    (way : plain mem g ys = true) (solely : Solely mem' last g ys) : Solely mem last g ys := by
  have others : ∀ g j, IsTable mem t g → isEntry (mem' g j) = false → isEntry (mem g j) = false := by
    intro g j table absent
    by_contra entry
    rw [kept g j table (by simpa using entry)] at absent
    exact entry absent
  induction ys generalizing xs g with
  | nil => exact fun j other => others g j ⟨xs, reached⟩ (solely j other)
  | cons i ys ih =>
    rw [List.length_cons] at short
    refine ⟨fun j other => others g j ⟨xs, reached⟩ (solely.1 j other), fun entry => ?_⟩
    have present := isEntry_present entry
    obtain ⟨small, deeper⟩ := plain_cons way present
    have links : Links mem g i (frameOf (mem g i)) := ⟨present, small, rfl⟩
    have high := List.length_pos_iff.mpr below
    have next := follow_snoc reached (branches_links links (by omega) (by omega) (by omega))
    have same := kept g i ⟨xs, reached⟩ entry
    have rest := solely.2 (by rw [same]; exact entry)
    rw [same] at rest
    exact ih next (by simp) (by simp; omega) deeper rest

end Solely

section Calls

variable {used roots ram : Set Frame} {stock : List Frame} {c c' : Core} {mirror t : Frame} {v physAddr : W64}
  {prop : PageProperties} (family : Family c roots ram mirror) (member : t ∈ roots)
include family member

theorem Family.mapPage_accounted (accounted : Accounted used roots stock c)
    (edit : Editable (c.shut t) t v) (taken : mapPage t physAddr v prop (c.shut t) = some ((), c')) :
    Accounted used roots stock c' := by
  have shut := family.edits member (shut_edits c t)
  obtain ⟨pt, c1, first, rfl⟩ := mapPage_cases taken
  obtain ⟨grows, place⟩ := edit.descend first
  have grown := shut.accounted_grows member (accounted.shut t) grows
  exact (shut.edits member grows.edits).accounted_leaf member grown place rfl _

theorem Family.shared_before (edit : Editable c t v) {t1 r : Frame} {c1 : Core} (grows : Grows t c c1)
    (first : follow branches c1.mem 3 t [getPl4Index v] = some t1) (root : r ∈ roots)
    (shared : Links c.mem r (getPl4Index v) t1) : Links c.mem t (getPl4Index v) t1 := by
  have place := follow_pl4 shared edit.outside
  rcases grows.tables edit.space edit.space ⟨_, first⟩ with ⟨xs, old⟩ | new
  · cases family.separated.path member root old place
    obtain ⟨k, here, rest⟩ := follow_cons_some old
    cases rest
    exact (branches_table here).1
  · exact absurd ⟨_, place⟩ ((family.stocked t1 new).2 r root)

theorem Family.first_spared (ready : t ≠ c.cr3 → ¬ IsTable c.mem t c.cr3) (edit : Editable c t v)
    (spares : Spares c.mem roots t v) {t1 t2 t3 r : Frame} {c1 : Core} (grows : Grows t (c.shut t) c1)
    (chain : Chain c1.mem v t t1 t2 t3) (tree : Tree c1.mem t)
    (vacant : Vacant (c1.cut3 v t1 t2 t3).mem t1) (root : r ∈ roots) (other : r ≠ t) :
    ¬ Links (c.shut t).mem r (getPl4Index v) t1 := by
  intro shared
  have shut := family.edits member (shut_edits c t)
  have edit' := edit.shut ready
  have own := shut_links (shut.shared_before member edit' grows (chain.pointers edit.outside) root shared)
  apply spares r root other t1 own (shut_links shared)
  have kept : ∀ g j, IsTable c.mem t g → isEntry (c.mem g j) = true → c1.mem g j = c.mem g j := by
    rintro g j ⟨xs, path⟩ entry
    have row : (c.shut t).mem g = c.mem g := shut_row ready ⟨xs, path⟩
    have unused : g ∉ (c.shut t).supply := by
      rw [shut_supply]
      exact fun stocked => (family.stocked g stocked).2 t member ⟨xs, path⟩
    rw [grows.present unused (by rw [row]; exact isEntry_present entry), row]
  have below := (plain_cons edit.way own.present).2
  rw [own.frame] at below
  exact (vacant_solely chain edit.outside tree vacant).of_kept kept (follow_pl4 own edit.outside)
    (List.cons_ne_nil _ _) (Nat.le_refl 3) below

theorem Family.removePage_accounted (branched : Branched c.mem roots) (accounted : Accounted used roots stock c)
    (ready : t ≠ c.cr3 → ¬ IsTable c.mem t c.cr3) (edit : Editable c t v) (spares : Spares c.mem roots t v)
    (taken : removePage t v (c.shut t) = some ((), c')) : Accounted used roots stock c' := by
  have shut := family.edits member (shut_edits c t)
  obtain ⟨t1, t2, t3, c1, grows, chain, rfl, -, fewer⟩ := removePage_spec (edit.shut ready) taken
  have family1 := shut.edits member grows.edits
  have branched1 := family.edits_branched branched member ((shut_edits c t).trans grows.edits)
  have tree := (family1.space member).tree
  obtain ⟨below, ⟨first, second⟩, first'⟩ := cut_links chain edit.outside tree
  obtain ⟨leaf, last, middle, -⟩ := remove_edits chain edit.outside tree
  have cleared : Accounted used roots stock (c1.cut1 v t3) :=
    family1.accounted_leaf member (shut.accounted_grows member (accounted.shut t) grows)
      (chain.last edit.outside) rfl _
  have once := (family1.edits member leaf).accounted_reclaim member (family1.edits_branched branched1 member leaf)
    cleared (below.directory edit.outside) (by simp) nofun below.third nofun
  have twice := (family1.edits member last).accounted_reclaim member (family1.edits_branched branched1 member last)
    once (follow_pl4 first edit.outside) (by simp) nofun second nofun
  have top : follow branches (c1.cut3 v t1 t2 t3).mem 3 t [] = some t := rfl
  refine (family1.edits member middle).accounted_reclaim member (family1.edits_branched branched1 member middle)
    twice top (by simp) (fun _ => edit.outside) first' ?_
  intro _ vacant r root other shared
  refine family.first_spared member ready edit spares grows chain tree vacant root other ?_
  -- the entry is still there at the end, so it was there before
  have final := shared.of_row (reclaim_row (g := t1) (i := getPl4Index v) other)
  exact final.congr (fewer r _ final.present).symm

end Calls

end Neutrino.Virtual
