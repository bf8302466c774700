import Neutrino.Virtual.Map

namespace Neutrino.Virtual

open Library

/-- A table with no present entry. -/
def Blank (mem : Mem) (g : Frame) : Prop := ∀ j : Index, isPresent (mem g j) = false

instance (mem : Mem) (g : Frame) : Decidable (Blank mem g) :=
  inferInstanceAs (Decidable (∀ j : Index, isPresent (mem g j) = false))

def Core.clear (c : Core) (g : Frame) (i : Index) : Core :=
  c.withMem (c.mem.write g i (pageClearBit (c.mem g i) presentBitOffset))

/-- An entry that `vmm_get_entry` finds: the address that it returns must not be the null pointer. -/
def isEntry (e : W64) : Bool := isPresent e && getMemAddress (getPhysicalAddress e) != 0#64

/-- A table in which `vmm_is_table_free` finds nothing. -/
def Vacant (mem : Mem) (g : Frame) : Prop := ∀ j : Index, isEntry (mem g j) = false

instance (mem : Mem) (g : Frame) : Decidable (Vacant mem g) :=
  inferInstanceAs (Decidable (∀ j : Index, isEntry (mem g j) = false))

/-- `vmm_free_if_necessary_table` on the frames themselves. -/
def Core.reclaim (c : Core) (g parent : Frame) (i : Index) : Core :=
  if Vacant c.mem g then
    { c.clear parent i with freed := c.freed ++ [getPhysicalAddress (c.mem parent i)] }
  else c

section Release

variable {c : Core} {t r f g h parent : Frame} {i j : Index} {xs ys w : List Index}

theorem clear_of_ne (other : ¬ (h = g ∧ j = i)) : (c.clear g i).mem h j = c.mem h j := write_of_ne other

theorem clear_absent : isPresent ((c.clear g i).mem g i) = false := by
  have entry : (c.clear g i).mem g i = pageClearBit (c.mem g i) presentBitOffset := write_self
  rw [entry, isPresent_cleared]

/-- Entries are only taken away. -/
def Fewer (mem mem' : Mem) : Prop := ∀ h j, isPresent (mem' h j) = true → mem' h j = mem h j

theorem Fewer.trans {mem mem' mem'' : Mem} (first : Fewer mem mem') (second : Fewer mem' mem'') :
    Fewer mem mem'' := by
  intro h j present
  have same := second h j present
  rw [same] at present ⊢
  exact first h j present

theorem clear_fewer (c : Core) (g : Frame) (i : Index) : Fewer c.mem (c.clear g i).mem := by
  intro h j present
  apply clear_of_ne
  rintro ⟨rfl, rfl⟩
  rw [clear_absent] at present
  cases present

theorem vacant_congr {mem mem' : Mem} {g : Frame} (same : mem g = mem' g) : Vacant mem g ↔ Vacant mem' g := by
  simp only [Vacant, same]

theorem reclaim_mem : (c.reclaim g parent i).mem = if Vacant c.mem g then (c.clear parent i).mem else c.mem := by
  unfold Core.reclaim
  split <;> rfl

theorem reclaim_freed : (c.reclaim g parent i).freed = c.freed ++
    if Vacant c.mem g then [getPhysicalAddress (c.mem parent i)] else [] := by
  unfold Core.reclaim
  split
  · rfl
  · rw [List.append_nil]

theorem reclaim_of_ne (other : ¬ (h = parent ∧ j = i)) : (c.reclaim g parent i).mem h j = c.mem h j := by
  rw [reclaim_mem]
  split
  · exact clear_of_ne other
  · rfl

theorem reclaim_row (other : h ≠ parent) : (c.reclaim g parent i).mem h = c.mem h :=
  funext fun _ => reclaim_of_ne fun both => other both.1

theorem reclaim_fewer (c : Core) (g parent : Frame) (i : Index) :
    Fewer c.mem (c.reclaim g parent i).mem := by
  rw [reclaim_mem]
  split
  · exact clear_fewer c parent i
  · exact fun _ _ _ => rfl

theorem reclaim_other : (c.reclaim g parent i).cr3 = c.cr3 ∧ (c.reclaim g parent i).supply = c.supply ∧
    (c.reclaim g parent i).initialized = c.initialized := by
  unfold Core.reclaim
  split <;> exact ⟨rfl, rfl, rfl⟩

theorem reclaim_absent (vacant : Vacant c.mem g) : isPresent ((c.reclaim g parent i).mem parent i) = false := by
  rw [reclaim_mem, if_pos vacant, clear_absent]

theorem Blank.vacant {mem : Mem} {g : Frame} (blank : Blank mem g) : Vacant mem g := by
  intro j
  simp [isEntry, blank j]

/-- The entries of the space hold addresses that `GET_MEM_ADDRESS` can map. -/
def Bounded (mem : Mem) (t : Frame) : Prop :=
  ∀ g i, IsTable mem t g → isPresent (mem g i) = true → (getPhysicalAddress (mem g i)).toNat < 2 ^ 47

theorem getPhysicalAddress_frame {e : W64} (low : (getPhysicalAddress e).toNat < 2 ^ 47) :
    getPhysicalAddress e = frameAddress (frameOf e) := by
  rw [getPhysicalAddress_toNat] at low
  apply BitVec.eq_of_toNat_eq
  rw [getPhysicalAddress_toNat, frameAddress_toNat, frameOf_toNat]
  omega

theorem getMemAddress_ne {e : W64} (other : e.toNat ≠ 2 ^ 47) : getMemAddress e ≠ 0#64 := by
  intro zero
  have sum := congrArg BitVec.toNat zero
  have base : memvOffset.toNat = 2 ^ 64 - 2 ^ 47 := by decide
  rw [getMemAddress, BitVec.toNat_add, base] at sum
  have none : (0#64).toNat = 0 := rfl
  have bound := e.isLt
  omega

section Fewer

variable {mem mem' : Mem} (fewer : Fewer mem mem')
include fewer

theorem Fewer.follow (path : Library.follow branches mem' 3 r ys = some f) :
    Library.follow branches mem 3 r ys = some f := by
  refine follow_of_edits (fun zs j h k _ found => ?_) path
  rw [← fewer h j (branches_table found).1.present]
  exact found

theorem Fewer.aligned (aligned : Aligned mem t r) : Aligned mem' t r :=
  fun xs ys f first second => aligned xs ys f (fewer.follow first) (fewer.follow second)

/-- In a table of a bounded space every present entry is found. -/
theorem Bounded.vacant_iff (bounded : Bounded mem t) (table : IsTable mem t g) : Vacant mem' g ↔ Blank mem' g := by
  refine forall_congr' fun j => ?_
  cases present : isPresent (mem' g j) with
  | false => simp [isEntry, present]
  | true =>
    have same := fewer g j present
    rw [same] at present ⊢
    simp [isEntry, present, getMemAddress_ne (bounded g j table present).ne]

end Fewer

theorem Bounded.fewer {mem mem' : Mem} (bounded : Bounded mem t) (fewer : Fewer mem mem') : Bounded mem' t := by
  rintro g i ⟨xs, path⟩ present
  have same := fewer g i present
  rw [same] at present ⊢
  exact bounded g i ⟨xs, fewer.follow path⟩ present

theorem lookup_blank (blank : Blank c.mem g) : lookup branches c.mem g w = none := by
  cases w with
  | nil => rfl
  | cons j w => simp only [lookup, branches_absent (blank j)]

theorem lookup_reclaim (aligned : Aligned c.mem t r) (place : follow branches c.mem 3 t xs = some parent)
    (high : xs.length ≤ 2) (links : Links c.mem parent i g) (empty : Vacant c.mem g → Blank c.mem g)
    (four : w.length = 4) : lookup branches (c.reclaim g parent i).mem r w = lookup branches c.mem r w := by
  rw [reclaim_mem]
  split
  case isFalse => rfl
  case isTrue vacant =>
    have blank := empty vacant
    apply lookup_of_edits
    intro zs j rest h split reached
    rw [four] at reached
    by_cases edited : h = parent ∧ j = i
    · obtain ⟨rfl, rfl⟩ := edited
      cases aligned xs zs h place reached
      have length := congrArg List.length split
      rw [List.length_append, List.length_cons, four] at length
      refine .inr ⟨?_, by simp only [lookup, branches_absent clear_absent]⟩
      by_cases cut : rest.length = 3 ∧ j = recurseActive
      · simp [lookup, branches, cut]
      · simp only [lookup, branches_links links (by omega) (by omega) fun top same => cut ⟨top, same⟩,
          lookup_blank blank, Option.map_none]
    · exact .inl (clear_of_ne edited)

end Release

/-- The tables on the way to an address. -/
structure Chain (mem : Mem) (v : W64) (t t1 t2 t3 : Frame) : Prop where
  first : Links mem t (getPl4Index v) t1
  second : Links mem t1 (getDptIndex v) t2
  third : Links mem t2 (getDirIndex v) t3

-- `vmm_unmap_page` once it has been to the table, to the directory and to the pointers.

def Core.cut1 (c : Core) (v : W64) (t3 : Frame) : Core := c.clear t3 (getTabIndex v)

def Core.cut2 (c : Core) (v : W64) (t2 t3 : Frame) : Core := (c.cut1 v t3).reclaim t3 t2 (getDirIndex v)

def Core.cut3 (c : Core) (v : W64) (t1 t2 t3 : Frame) : Core := (c.cut2 v t2 t3).reclaim t2 t1 (getDptIndex v)

def Core.remove (c : Core) (v : W64) (t t1 t2 t3 : Frame) : Core := (c.cut3 v t1 t2 t3).reclaim t1 t (getPl4Index v)

def removePage (t : Frame) (virtAddr : W64) : CoreM Unit := do
  let t3 ← descend (superProperties pageKernelWrite) t (directories virtAddr)
  modify fun c =>
    let t1 := frameOf (c.mem t (getPl4Index virtAddr))
    let t2 := frameOf (c.mem t1 (getDptIndex virtAddr))
    c.remove virtAddr t t1 t2 t3

section Chains

variable {mem : Mem} {v : W64} {t t1 t2 t3 : Frame}

theorem follow_pl4 (links : Links mem t (getPl4Index v) t1) (outside : getPl4Index v ≠ recurseActive) :
    follow branches mem 3 t [getPl4Index v] = some t1 := by
  rw [follow_cons (branches_links links (by decide) (by decide) fun _ => outside)]
  rfl

variable (chain : Chain mem v t t1 t2 t3) (outside : getPl4Index v ≠ recurseActive)
include chain outside

theorem Chain.pointers : follow branches mem 3 t [getPl4Index v] = some t1 :=
  follow_pl4 chain.first outside

theorem Chain.directory : follow branches mem 3 t [getPl4Index v, getDptIndex v] = some t2 :=
  follow_snoc (chain.pointers outside) (branches_links chain.second (by simp) (by simp) (by simp))

theorem Chain.last : follow branches mem 3 t (directories v) = some t3 :=
  follow_snoc (chain.directory outside) (branches_links chain.third (by simp) (by simp) (by simp))

theorem Chain.distinct (tree : Tree mem t) :
    t1 ≠ t ∧ t2 ≠ t ∧ t3 ≠ t ∧ t2 ≠ t1 ∧ t3 ≠ t1 ∧ t3 ≠ t2 := by
  have root : follow branches mem 3 t [] = some t := rfl
  have pointers := chain.pointers outside
  have directory := chain.directory outside
  have last := chain.last outside
  refine ⟨?_, ?_, ?_, ?_, ?_, ?_⟩
  · rintro rfl
    exact absurd (tree _ _ _ pointers root) (by simp)
  · rintro rfl
    exact absurd (tree _ _ _ directory root) (by simp)
  · rintro rfl
    exact absurd (tree _ _ _ last root) (by simp [directories])
  · rintro rfl
    exact absurd (tree _ _ _ directory pointers) (by simp)
  · rintro rfl
    exact absurd (tree _ _ _ last pointers) (by simp [directories])
  · rintro rfl
    exact absurd (tree _ _ _ last directory) (by simp [directories])

end Chains

section Remove

variable {c : Core} {v : W64} {t t1 t2 t3 r : Frame} {w : List Index}

theorem cut1_fewer : Fewer c.mem (c.cut1 v t3).mem := clear_fewer _ _ _

theorem cut2_fewer : Fewer c.mem (c.cut2 v t2 t3).mem := cut1_fewer.trans (reclaim_fewer _ _ _ _)

theorem cut3_fewer : Fewer c.mem (c.cut3 v t1 t2 t3).mem := cut2_fewer.trans (reclaim_fewer _ _ _ _)

theorem remove_fewer : Fewer c.mem (c.remove v t t1 t2 t3).mem := cut3_fewer.trans (reclaim_fewer _ _ _ _)

variable (chain : Chain c.mem v t t1 t2 t3) (outside : getPl4Index v ≠ recurseActive) (tree : Tree c.mem t)
include chain outside tree

theorem remove_rows :
    (c.remove v t t1 t2 t3).mem t3 = (c.cut1 v t3).mem t3 ∧ (c.remove v t t1 t2 t3).mem t2 = (c.cut2 v t2 t3).mem t2 ∧
    (c.remove v t t1 t2 t3).mem t1 = (c.cut3 v t1 t2 t3).mem t1 := by
  obtain ⟨d1, d2, d3, d21, d31, d32⟩ := chain.distinct outside tree
  refine ⟨?_, ?_, ?_⟩
  · rw [Core.remove, reclaim_row d3, Core.cut3, reclaim_row d31, Core.cut2, reclaim_row d32]
  · rw [Core.remove, reclaim_row d2, Core.cut3, reclaim_row d21]
  · rw [Core.remove, reclaim_row d1]

/-- What is cut off at one level leaves the entries above it alone. -/
theorem cut_entries :
    ((c.cut1 v t3).mem t2 = c.mem t2 ∧ (c.cut1 v t3).mem t1 = c.mem t1 ∧ (c.cut1 v t3).mem t = c.mem t) ∧
    ((c.cut2 v t2 t3).mem t1 = c.mem t1 ∧ (c.cut2 v t2 t3).mem t = c.mem t) ∧ (c.cut3 v t1 t2 t3).mem t = c.mem t := by
  obtain ⟨d1, d2, d3, d21, d31, d32⟩ := chain.distinct outside tree
  have row : ∀ {h}, h ≠ t3 → (c.cut1 v t3).mem h = c.mem h := fun other => funext fun j => clear_of_ne fun both => other both.1
  refine ⟨⟨row d32.symm, row d31.symm, row d3.symm⟩, ⟨?_, ?_⟩, ?_⟩
  · rw [Core.cut2, reclaim_row d21.symm, row d31.symm]
  · rw [Core.cut2, reclaim_row d2.symm, row d3.symm]
  · rw [Core.cut3, reclaim_row d1.symm, Core.cut2, reclaim_row d2.symm, row d3.symm]

theorem cut_links :
    Chain (c.cut1 v t3).mem v t t1 t2 t3 ∧
    (Links (c.cut2 v t2 t3).mem t (getPl4Index v) t1 ∧ Links (c.cut2 v t2 t3).mem t1 (getDptIndex v) t2) ∧
    Links (c.cut3 v t1 t2 t3).mem t (getPl4Index v) t1 := by
  obtain ⟨⟨row2, row1, row⟩, ⟨row1', row'⟩, row''⟩ := cut_entries chain outside tree
  exact ⟨⟨chain.first.of_row row, chain.second.of_row row1, chain.third.of_row row2⟩,
    ⟨chain.first.of_row row', chain.second.of_row row1'⟩, chain.first.of_row row''⟩

theorem remove_unlinked :
    (Vacant (c.remove v t t1 t2 t3).mem t3 → isPresent ((c.remove v t t1 t2 t3).mem t2 (getDirIndex v)) = false) ∧
    (Vacant (c.remove v t t1 t2 t3).mem t2 → isPresent ((c.remove v t t1 t2 t3).mem t1 (getDptIndex v)) = false) ∧
    (Vacant (c.remove v t t1 t2 t3).mem t1 → isPresent ((c.remove v t t1 t2 t3).mem t (getPl4Index v)) = false) := by
  obtain ⟨row3, row2, row1⟩ := remove_rows chain outside tree
  refine ⟨fun vacant => ?_, fun vacant => ?_, fun vacant => ?_⟩
  · rw [row2]
    exact reclaim_absent ((vacant_congr row3).mp vacant)
  · rw [row1]
    exact reclaim_absent ((vacant_congr row2).mp vacant)
  · exact reclaim_absent ((vacant_congr row1).mp vacant)

variable (bounded : Bounded c.mem t)
include bounded

theorem remove_reclaims (aligned : Aligned c.mem t r) (four : w.length = 4) :
    lookup branches (c.remove v t t1 t2 t3).mem r w = lookup branches (c.cut1 v t3).mem r w := by
  obtain ⟨below, ⟨first, second⟩, first'⟩ := cut_links chain outside tree
  have root : follow branches (c.cut3 v t1 t2 t3).mem 3 t [] = some t := rfl
  have empty : ∀ {mem g}, Fewer c.mem mem → IsTable c.mem t g → Vacant mem g → Blank mem g :=
    fun fewer table => (bounded.vacant_iff fewer table).mp
  rw [Core.remove, lookup_reclaim (cut3_fewer.aligned aligned) root (by decide) first'
      (empty cut3_fewer ⟨_, chain.pointers outside⟩) four,
    Core.cut3, lookup_reclaim (cut2_fewer.aligned aligned) (follow_pl4 first outside) (by simp) second
      (empty cut2_fewer ⟨_, chain.directory outside⟩) four,
    Core.cut2, lookup_reclaim (cut1_fewer.aligned aligned) (below.directory outside) (by simp) below.third
      (empty cut1_fewer ⟨_, chain.last outside⟩) four]

theorem remove_lookup (aligned : Aligned c.mem t r) (four : w.length = 4)
    (other : w ≠ directories v ++ [getTabIndex v]) :
    lookup branches (c.remove v t t1 t2 t3).mem r w = lookup branches c.mem r w :=
  (remove_reclaims chain outside tree bounded aligned four).trans
    (lookup_leaf aligned (chain.last outside) rfl four other)

theorem remove_walk : walk (c.remove v t t1 t2 t3).mem t (pageNumber v) = none := by
  obtain ⟨below, -⟩ := cut_links chain outside tree
  rw [← walk_absent outside (below.last outside) clear_absent]
  apply walk_congr
  · rw [slotOf_pageNumber]
    exact outside
  · intro _
    exact remove_reclaims chain outside tree bounded tree.aligned (indices_length _)

theorem remove_freed : (c.remove v t t1 t2 t3).freed = c.freed ++
    ([t3, t2, t1].filter fun g => Blank (c.remove v t t1 t2 t3).mem g).map frameAddress := by
  obtain ⟨⟨entry3, -, -⟩, ⟨entry2, -⟩, entry1⟩ := cut_entries chain outside tree
  obtain ⟨row3, row2, row1⟩ := remove_rows chain outside tree
  have address : ∀ {g i h}, IsTable c.mem t g → Links c.mem g i h → getPhysicalAddress (c.mem g i) = frameAddress h := by
    intro g i h table links
    rw [getPhysicalAddress_frame (bounded g i table links.present), links.frame]
  have freed : (c.cut1 v t3).freed = c.freed := rfl
  have sum : (c.remove v t t1 t2 t3).freed = c.freed ++
      (if Vacant (c.remove v t t1 t2 t3).mem t3 then [frameAddress t3] else []) ++
      (if Vacant (c.remove v t t1 t2 t3).mem t2 then [frameAddress t2] else []) ++
      (if Vacant (c.remove v t t1 t2 t3).mem t1 then [frameAddress t1] else []) := by
    simp only [vacant_congr row3, vacant_congr row2, vacant_congr row1]
    rw [Core.remove, reclaim_freed, Core.cut3, reclaim_freed, Core.cut2, reclaim_freed, ← Core.cut2, ← Core.cut3,
      entry1, entry2, entry3, address ⟨[], rfl⟩ chain.first, address ⟨_, chain.pointers outside⟩ chain.second,
      address ⟨_, chain.directory outside⟩ chain.third, freed]
  rw [sum]
  simp only [bounded.vacant_iff remove_fewer ⟨_, chain.last outside⟩,
    bounded.vacant_iff remove_fewer ⟨_, chain.directory outside⟩,
    bounded.vacant_iff remove_fewer ⟨_, chain.pointers outside⟩]
  by_cases blank3 : Blank (c.remove v t t1 t2 t3).mem t3 <;>
    by_cases blank2 : Blank (c.remove v t t1 t2 t3).mem t2 <;>
    by_cases blank1 : Blank (c.remove v t t1 t2 t3).mem t1 <;>
    simp [blank3, blank2, blank1]

omit bounded in
theorem remove_gone {g : Frame} (member : g ∈ [t3, t2, t1]) (blank : Blank (c.remove v t t1 t2 t3).mem g) :
    ¬ IsTable (c.remove v t t1 t2 t3).mem t g := by
  obtain ⟨free3, free2, free1⟩ := remove_unlinked chain outside tree
  -- the tree has no other entry for it
  have unlinked : ∀ {xs i parent}, follow branches c.mem 3 t xs = some parent →
      follow branches c.mem 3 t (xs ++ [i]) = some g →
      isPresent ((c.remove v t t1 t2 t3).mem parent i) = false →
      ¬ IsTable (c.remove v t t1 t2 t3).mem t g := by
    rintro xs i parent above place absent ⟨ys, path⟩
    cases tree _ _ _ (remove_fewer.follow path) place
    obtain ⟨k, reached, found⟩ := follow_snoc_some path
    have same := remove_fewer.follow reached
    rw [above] at same
    cases same
    rw [(branches_table found).1.present] at absent
    cases absent
  have root : follow branches c.mem 3 t [] = some t := rfl
  simp only [List.mem_cons, List.not_mem_nil, or_false] at member
  rcases member with rfl | rfl | rfl
  · exact unlinked (chain.directory outside) (chain.last outside) (free3 blank.vacant)
  · exact unlinked (chain.pointers outside) (chain.directory outside) (free2 blank.vacant)
  · exact unlinked root (chain.pointers outside) (free1 blank.vacant)

end Remove

/-- The tables on a path: those there are, then a new one for each missing level. -/
def pathTables (mem : Mem) : Frame → List Index → List Frame → List Frame
  | _, [], _ => []
  | g, i :: rest, supply =>
    if isPresent (mem g i) then frameOf (mem g i) :: pathTables mem (frameOf (mem g i)) rest supply
    else supply.take (rest.length + 1)

section RemovePage

variable {c c1 d d' : Core} {c' : Core} {t t3 f g r : Frame} {v : W64} {i : Index} {ys : List Index}
  {prop : PageProperties} {q : PageNumber}

theorem pathTables_ensure (taken : ensure prop g i c = some (f, c')) :
    pathTables c.mem g (i :: ys) c.supply = f :: pathTables c'.mem f ys c'.supply := by
  rcases ensure_cases taken with ⟨present, rfl, rfl⟩ | ⟨absent, rest, supply, rfl⟩
  · rw [pathTables, if_pos present]
  · have blank : ∀ j, isPresent ((c.link g i f prop rest).mem f j) = false := by
      intro j
      have zero : (c.link g i f prop rest).mem f j = 0#64 := link_blank
      rw [zero, isPresent_zero]
    rw [pathTables, absent, if_neg (by decide), supply, List.take_succ_cons]
    cases ys with
    | nil => rfl
    | cons j ys =>
      rw [pathTables, blank, if_neg (by decide)]
      rfl

theorem fewer_ensure {mem : Mem} (taken : ensure prop g i d = some (f, d')) (fewer : Fewer d'.mem mem)
    (unlinked : Blank mem f → isPresent (mem g i) = false) : Fewer d.mem mem := by
  rcases ensure_cases taken with ⟨-, -, rfl⟩ | ⟨-, rest, -, rfl⟩
  · exact fewer
  · have blank : Blank mem f := by
      intro j
      by_contra present
      have entry := fewer f j (by simpa using present)
      have zero : (d.link g i f prop rest).mem f j = 0#64 := link_blank
      rw [entry, zero, isPresent_zero] at present
      exact present rfl
    intro h j present
    rw [fewer h j present]
    refine link_of_ne ?_ ?_
    · rintro rfl
      rw [blank j] at present
      cases present
    · rintro ⟨rfl, rfl⟩
      rw [unlinked blank] at present
      cases present

theorem descend_levels (edit : Editable c t v) (taken : descend prop t (directories v) c = some (t3, c1)) :
    ∃ t1 t2 d1 d2, ensure prop t (getPl4Index v) c = some (t1, d1) ∧
      ensure prop t1 (getDptIndex v) d1 = some (t2, d2) ∧
      ensure prop t2 (getDirIndex v) d2 = some (t3, c1) ∧ Chain c1.mem v t t1 t2 t3 := by
  obtain ⟨t1, d1, first, taken⟩ := bind_some taken
  obtain ⟨t2, d2, second, taken⟩ := bind_some taken
  obtain ⟨t3, d3, third, taken⟩ := bind_some taken
  cases taken
  obtain ⟨grows1, links1, way1⟩ := edit.start.ensure edit.space first
  have space1 := grows1.space edit.space edit.space
  obtain ⟨grows2, links2, way2⟩ := way1.ensure space1 second
  have space2 := grows2.space space1 space1
  obtain ⟨grows3, links3, -⟩ := way2.ensure space2 third
  have used : t ∉ d1.supply := fun member => space1.fresh t member ⟨[], rfl⟩
  have used2 : t ∉ d2.supply := fun member => used (grows2.supply member)
  have used1 : t1 ∉ d2.supply := fun member =>
    space2.fresh t1 member ⟨_, grows2.follow_eq space1 space1 way1.place⟩
  exact ⟨t1, t2, d1, d2, first, second, third, grows3.links used2 (grows2.links used links1),
    grows3.links used1 links2, links3⟩

theorem removePage_spec (edit : Editable c t v) (taken : removePage t v c = some ((), c')) :
    ∃ t1 t2 t3 c1, Grows t c c1 ∧ Chain c1.mem v t t1 t2 t3 ∧ c' = c1.remove v t t1 t2 t3 ∧
      pathTables c.mem t (directories v) c.supply = [t1, t2, t3] ∧ Fewer c.mem c'.mem := by
  obtain ⟨t3, c1, first, rest⟩ := bind_some taken
  obtain ⟨grows, -⟩ := edit.descend first
  obtain ⟨t1, t2, d1, d2, one, two, three, chain⟩ := descend_levels edit first
  have spaced := grows.space edit.space edit.space
  have same : c' = c1.remove v t t1 t2 t3 := by
    cases rest
    simp only [chain.first.frame, chain.second.frame]
  refine ⟨t1, t2, t3, c1, grows, chain, same, ?_, ?_⟩
  · rw [directories, pathTables_ensure one, pathTables_ensure two, pathTables_ensure three]
    rfl
  · obtain ⟨free3, free2, free1⟩ := remove_unlinked chain edit.outside spaced.tree
    rw [same]
    exact fewer_ensure one (fewer_ensure two (fewer_ensure three remove_fewer fun blank => free3 blank.vacant)
      fun blank => free2 blank.vacant) fun blank => free1 blank.vacant

theorem removePage_total (enough : 3 ≤ c.supply.length) : ∃ c', removePage t v c = some ((), c') := by
  have long : (directories v).length ≤ c.supply.length := enough
  obtain ⟨pt, c1, first, -⟩ := descend_total (superProperties pageKernelWrite) t long
  exact ⟨_, by simp only [removePage, Bind.bind, StateT.bind, first, Option.bind]; rfl⟩

end RemovePage

end Neutrino.Virtual
