import Neutrino.Virtual.Unmap

namespace Neutrino.Virtual

open Library Relation

/-- The places in the lower half of a space. -/
def Lower (xs : List Index) : Prop := ∀ i ∈ xs.head?, i.toNat < 256

/-- Address spaces under one active PML4, with the frames that the allocator hands out next. The
    frames in `ram` are those that the mirror at `PERM_OFFSET` shows. -/
structure Family (c : Core) (roots ram : Set Frame) (mirror : Frame) : Prop where
  initialized : c.initialized = true
  active : c.cr3 ∈ roots
  inside : roots ⊆ ram
  selves : ∀ r ∈ roots, Links c.mem r recurseActive r
  perm : Links c.mem c.cr3 permSlot mirror
  mirrored : ∀ f ∈ ram, Mirrored c.mem mirror f
  separated : Separated branches c.mem 3 roots Lower
  nodup : c.supply.Nodup
  stocked : ∀ f ∈ c.supply, f ∈ ram ∧ ∀ r ∈ roots, ¬ IsTable c.mem r f

/-- One change that the code makes to the tables of the space `t`. -/
inductive Edit (t : Frame) (c : Core) : Core → Prop
  | link {c' : Core} (linked : Linked t c c') : Edit t c c'
  | leaf {xs : List Index} {g : Frame} (place : follow branches c.mem 3 t xs = some g)
    (last : xs.length = 3) (i : Index) (e : W64) : Edit t c (c.withMem (c.mem.write g i e))
  | drop {xs : List Index} {g h : Frame} {i : Index} (place : follow branches c.mem 3 t xs = some g)
    (high : xs.length ≤ 2) (outside : xs = [] → i ≠ recurseActive) (links : Links c.mem g i h)
    (vacant : Vacant c.mem h) :
    Edit t c { c.clear g i with freed := c.freed ++ [getPhysicalAddress (c.mem g i)] }
  | close (inactive : t ≠ c.cr3) : Edit t c (c.setOther 0#64)

abbrev Edits (t : Frame) : Core → Core → Prop := ReflTransGen (Edit t)

namespace Family

variable {c c' : Core} {roots ram : Set Frame} {mirror t r f g h : Frame} {xs ys : List Index}
  {i : Index} (family : Family c roots ram mirror)
include family

theorem space (member : r ∈ roots) : Space c r where
  tree := Tree.of_separated family.separated member
  fresh f stocked := (family.stocked f stocked).2 r member
  nodup := family.nodup

theorem aligned (member : t ∈ roots) (member' : r ∈ roots) : Aligned c.mem t r :=
  fun _ _ _ first second => family.separated.path member member' first second

theorem root_place (member : t ∈ roots) (root : r ∈ roots) (place : follow branches c.mem 3 t xs = some r) :
    xs = [] ∧ t = r := by
  have top : follow branches c.mem 3 r [] = some r := rfl
  have first := family.separated.path member root place top
  subst first
  cases place
  exact ⟨rfl, rfl⟩

theorem mirror_place : follow branches c.mem 3 c.cr3 [permSlot] = some mirror := by
  rw [follow_cons (branches_links family.perm (by decide) (by decide) fun _ => by decide)]
  rfl

theorem mirror_ne (root : r ∈ roots) : mirror ≠ r := by
  rintro rfl
  have place := (family.root_place family.active root family.mirror_place).1
  cases place

theorem root_unused (root : r ∈ roots) : r ∉ c.supply :=
  fun member => (family.stocked r member).2 r root ⟨[], rfl⟩

theorem mirror_unused : mirror ∉ c.supply :=
  fun member => (family.stocked mirror member).2 c.cr3 family.active ⟨_, family.mirror_place⟩

theorem backed : Backed c mirror where
  initialized := family.initialized
  links := family.perm
  mirrored f member := family.mirrored f (family.stocked f member).1
  apart f member := by
    refine ⟨?_, ?_⟩
    · rintro rfl
      exact family.root_unused family.active member
    · rintro rfl
      exact family.mirror_unused member
  below := family.mirror_ne family.active

theorem ready (member : t ∈ roots) : Ready c t mirror where
  active := family.selves c.cr3 family.active
  backed := family.backed
  apart inactive := by
    rintro ⟨xs, place⟩
    exact inactive (family.root_place member family.active place).2

theorem mirror_kept : ¬ Vacant c.mem mirror := by
  intro vacant
  have shown := family.mirrored c.cr3 (family.inside family.active)
  have none := vacant (c.cr3.extractLsb' 18 9)
  have other : (getPhysicalAddress (c.mem mirror (c.cr3.extractLsb' 18 9))).toNat ≠ 2 ^ 47 := by
    have top := congrArg BitVec.toNat shown.frame
    have small := shown.small
    simp only [BitVec.extractLsb'_toNat, Nat.shiftRight_eq_div_pow, frameOf_toNat] at top
    rw [getPhysicalAddress_toNat]
    omega
  simp [isEntry, shown.present, getMemAddress_ne other] at none

theorem of_pinned (on : c'.initialized = c.initialized) (root : c'.cr3 = c.cr3)
    (selves : ∀ r ∈ roots, c'.mem r recurseActive = c.mem r recurseActive)
    (perm : c'.mem c.cr3 permSlot = c.mem c.cr3 permSlot)
    (shown : ∀ f ∈ ram, c'.mem mirror (f.extractLsb' 18 9) = c.mem mirror (f.extractLsb' 18 9))
    (separated : Separated branches c'.mem 3 roots Lower) (nodup : c'.supply.Nodup)
    (stocked : ∀ f ∈ c'.supply, f ∈ ram ∧ ∀ r ∈ roots, ¬ IsTable c'.mem r f) :
    Family c' roots ram mirror where
  initialized := on.trans family.initialized
  active := by
    rw [root]
    exact family.active
  inside := family.inside
  selves r member := (family.selves r member).congr (selves r member)
  perm := by
    rw [root]
    exact family.perm.congr perm
  mirrored f member := by
    have before := family.mirrored f member
    have same := shown f member
    exact ⟨before.small, by rw [same, before.present], by rw [same, before.huge], by rw [same, before.frame]⟩
  separated := separated
  nodup := nodup
  stocked := stocked

theorem of_follow (on : c'.initialized = c.initialized) (root : c'.cr3 = c.cr3)
    (supply : c'.supply = c.supply)
    (selves : ∀ r ∈ roots, c'.mem r recurseActive = c.mem r recurseActive)
    (perm : c'.mem c.cr3 permSlot = c.mem c.cr3 permSlot)
    (shown : ∀ f ∈ ram, c'.mem mirror (f.extractLsb' 18 9) = c.mem mirror (f.extractLsb' 18 9))
    (old : ∀ r ∈ roots, ∀ xs f, follow branches c'.mem 3 r xs = some f →
      follow branches c.mem 3 r xs = some f) : Family c' roots ram mirror := by
  apply family.of_pinned on root selves perm shown
  · exact family.separated.mono (fun _ member => member) old
  · rw [supply]
    exact family.nodup
  · rw [supply]
    intro f member
    have ⟨shown, unused⟩ := family.stocked f member
    refine ⟨shown, ?_⟩
    rintro r inside ⟨xs, path⟩
    exact unused r inside ⟨xs, old r inside xs f path⟩

theorem link (member : t ∈ roots) (linked : Linked t c c') : Family c' roots ram mirror := by
  have target := family.space member
  have kept : ∀ {g i}, g ∉ c.supply → isPresent (c.mem g i) = true → c'.mem g i = c.mem g i :=
    fun unused present => linked.present unused present
  cases linked with
  | @intro xs g f i rest prop place high absent taken =>
    have apart := target.apart place taken
    have first := first_mem taken
    have grown : Grown branches c.mem (c.link g i f prop rest).mem g i f := grown_link absent apart
    have fresh : ∀ r ∈ roots, ∀ ys, follow branches c.mem 3 r ys ≠ some f :=
      fun r inside ys path => (family.stocked f first).2 r inside ⟨ys, path⟩
    have nodup := family.nodup
    rw [taken, List.nodup_cons] at nodup
    refine family.of_pinned (by rfl) (by rfl) ?_ ?_ ?_ ?_ ?_ ?_
    · exact fun r inside => kept (family.root_unused inside) (family.selves r inside).present
    · exact kept (family.root_unused family.active) family.perm.present
    · exact fun h inside => kept family.mirror_unused (family.mirrored h inside).present
    · apply family.separated.grow grown fresh
      intro xs j lower k head
      cases xs with
      | nil => cases head
      | cons a xs => exact lower k head
    · exact nodup.2
    · intro h member
      have before := family.stocked h (by rw [taken]; exact List.mem_cons_of_mem f member)
      refine ⟨before.1, ?_⟩
      rintro r inside ⟨ys, path⟩
      rcases grown.follow_cases (fresh r inside) path with old | ⟨rfl, -⟩
      · exact before.2 r inside ⟨ys, old⟩
      · exact nodup.1 member

section

variable (member : t ∈ roots) (place : follow branches c.mem 3 t xs = some g)
include member place

theorem leaf_apart (last : xs.length = 3) : (∀ r ∈ roots, r ≠ g) ∧ mirror ≠ g := by
  refine ⟨?_, ?_⟩
  · rintro r inside rfl
    rw [(family.root_place member inside place).1] at last
    cases last
  · rintro rfl
    rw [family.separated.path member family.active place family.mirror_place] at last
    cases last

theorem leaf (last : xs.length = 3) (i : Index) (e : W64) :
    Family (c.withMem (c.mem.write g i e)) roots ram mirror := by
  obtain ⟨roots_ne, mirror_ne⟩ := family.leaf_apart member place last
  refine family.of_follow (by rfl) (by rfl) (by rfl) ?_ ?_ ?_ ?_
  · exact fun r inside => write_of_ne fun both => roots_ne r inside both.1
  · exact write_of_ne fun both => roots_ne c.cr3 family.active both.1
  · exact fun f inside => write_of_ne fun both => mirror_ne both.1
  · intro r inside ys f path
    exact (follow_leaf (family.aligned member inside) place last).mp path

theorem drop (outside : xs = [] → i ≠ recurseActive) (links : Links c.mem g i h) (vacant : Vacant c.mem h)
    (freed : List W64) : Family { c.clear g i with freed := freed } roots ram mirror := by
  refine family.of_follow (by rfl) (by rfl) (by rfl) ?_ ?_ ?_ ?_
  · intro r inside
    apply clear_of_ne
    rintro ⟨rfl, same⟩
    exact outside (family.root_place member inside place).1 same.symm
  · apply clear_of_ne
    rintro ⟨rfl, rfl⟩
    rw [← links.frame, family.perm.frame] at vacant
    exact family.mirror_kept vacant
  · intro f inside
    apply clear_of_ne
    rintro ⟨rfl, rfl⟩
    have huge := (family.mirrored f inside).huge
    rw [links.small] at huge
    cases huge
  · intro r _ ys f path
    exact (clear_fewer c g i).follow path

end

theorem close : Family (c.setOther 0#64) roots ram mirror := by
  refine family.of_follow (by rfl) (by rfl) (by rfl) ?_ ?_ ?_ ?_
  · exact fun r inside => write_of_ne fun both => absurd both.2 (by decide)
  · exact write_of_ne fun both => absurd both.2 (by decide)
  · exact fun f inside => write_of_ne fun both => family.mirror_ne family.active both.1
  · intro r _ ys f path
    exact follow_close path

theorem edit (member : t ∈ roots) (edit : Edit t c c') : Family c' roots ram mirror := by
  cases edit with
  | link linked => exact family.link member linked
  | leaf place last i e => exact family.leaf member place last i e
  | drop place high outside links vacant => exact family.drop member place outside links vacant _
  | close inactive => exact family.close

theorem edits (member : t ∈ roots) (edits : Edits t c c') : Family c' roots ram mirror := by
  induction edits with
  | refl => exact family
  | tail _ edit ih => exact ih.edit member edit

end Family

/-- The frames that the allocator has for a call. -/
structure Stock (mem : Mem) (roots ram : Set Frame) (supply : List Frame) : Prop where
  nodup : supply.Nodup
  unused : ∀ f ∈ supply, f ∈ ram ∧ ∀ r ∈ roots, ¬ IsTable mem r f

def Machine.withSupply (m : Machine) (supply : List Frame) : Machine :=
  m.withCore (m.core.withSupply supply)

theorem Family.withSupply {c : Core} {roots ram : Set Frame} {mirror : Frame} {supply : List Frame}
    (family : Family c roots ram mirror) (stock : Stock c.mem roots ram supply) :
    Family (c.withSupply supply) roots ram mirror :=
  { family with nodup := stock.nodup, stocked := stock.unused }

theorem Family.taken {c : Core} {roots ram : Set Frame} {mirror f : Frame} {rest : List Frame}
    (family : Family c roots ram mirror) (supply : c.supply = f :: rest) :
    Family (c.withSupply rest) roots ram mirror ∧ f ∉ rest := by
  have nodup := family.nodup
  have stocked := family.stocked
  rw [supply] at nodup stocked
  have ⟨unused, nodup⟩ := List.nodup_cons.mp nodup
  exact ⟨family.withSupply ⟨nodup, fun h member => stocked h (List.mem_cons_of_mem f member)⟩, unused⟩

section Effects

variable {c c' : Core} {roots ram : Set Frame} {mirror t r f g : Frame} {q : PageNumber} {xs : List Index}

theorem Edits.cr3 (edits : Edits t c c') : c'.cr3 = c.cr3 := by
  induction edits with
  | refl => rfl
  | tail _ edit ih =>
    rw [← ih]
    cases edit with
    | link linked => cases linked with | intro => rfl
    | leaf | drop | close => rfl

theorem Edit.supply (edit : Edit t c c') : c'.supply ⊆ c.supply := by
  cases edit with
  | link linked => exact linked.supply
  | leaf | drop | close => exact fun _ member => member

theorem Edits.supply (edits : Edits t c c') : c'.supply ⊆ c.supply := by
  induction edits with
  | refl => exact fun _ member => member
  | tail _ edit ih => exact fun f member => ih (edit.supply member)

theorem Family.edit_tables (family : Family c roots ram mirror) (member : t ∈ roots) (root : r ∈ roots)
    (edit : Edit t c c') (table : IsTable c'.mem r g) : IsTable c.mem r g ∨ g ∈ c.supply := by
  cases edit with
  | link linked => exact linked.tables (family.space member) (family.space root) table
  | leaf place last i e =>
    obtain ⟨xs, path⟩ := table
    exact .inl ⟨xs, (follow_leaf (family.aligned member root) place last).mp path⟩
  | drop =>
    obtain ⟨xs, path⟩ := table
    exact .inl ⟨xs, (clear_fewer c _ _).follow path⟩
  | close =>
    obtain ⟨xs, path⟩ := table
    exact .inl ⟨xs, follow_close path⟩

theorem Family.edits_tables (family : Family c roots ram mirror) (member : t ∈ roots) (root : r ∈ roots)
    (edits : Edits t c c') (table : IsTable c'.mem r g) : IsTable c.mem r g ∨ g ∈ c.supply := by
  induction edits with
  | refl => exact .inl table
  | tail before edit ih =>
    rcases (family.edits member before).edit_tables member root edit table with old | new
    · exact ih old
    · exact .inr (Edits.supply before new)

theorem walk_lower {mem mem' : Mem} (low : (slotOf q).toNat < 256)
    (same : ∀ xs g i, follow branches mem 3 r xs = some g → Lower (xs ++ [i]) → mem' g i = mem g i) :
    walk mem' r q = walk mem r q := by
  have outside : slotOf q ≠ recurseActive := by
    intro slot
    rw [slot] at low
    exact absurd low (by decide)
  apply walk_congr outside
  intro _
  apply lookup_of_edits
  intro xs i rest g split reached
  refine .inl (same xs g i reached ?_)
  intro j head
  cases xs with
  | nil =>
    cases head
    rw [← (List.cons.inj split).1]
    exact low
  | cons a xs =>
    cases head
    rw [← (List.cons.inj split).1]
    exact low

section

variable (family : Family c roots ram mirror) (member : t ∈ roots) (root : r ∈ roots)
include family member root

theorem Family.edit_lower (other : r ≠ t) (edit : Edit t c c') (low : (slotOf q).toNat < 256) :
    walk c'.mem r q = walk c.mem r q := by
  -- a table of both spaces would sit in the lower half of both
  have apart : ∀ {xs ys i g}, follow branches c.mem 3 r xs = some g → Lower (xs ++ [i]) →
      follow branches c.mem 3 t ys ≠ some g := by
    intro xs ys i g here lower there
    cases family.separated.path root member here there
    refine other (family.separated.root root member here there ?_)
    cases xs with
    | nil => exact nofun
    | cons a xs => exact lower
  apply walk_lower low
  intro xs g i reached lower
  cases edit with
  | link linked =>
    cases linked with
    | intro prop place high absent taken =>
      apply link_of_ne
      · rintro rfl
        exact (family.stocked _ (first_mem taken)).2 r root ⟨xs, reached⟩
      · rintro ⟨rfl, -⟩
        exact apart reached lower place
  | leaf place last =>
    apply write_of_ne
    rintro ⟨rfl, -⟩
    exact apart reached lower place
  | drop place high outside links vacant =>
    apply clear_of_ne
    rintro ⟨rfl, -⟩
    exact apart reached lower place
  | close =>
    apply write_of_ne
    rintro ⟨rfl, rfl⟩
    cases (family.root_place root family.active reached).1
    exact absurd (lower recurseOther rfl) (by decide)

theorem Family.edits_lower (other : r ≠ t) (edits : Edits t c c') (low : (slotOf q).toNat < 256) :
    walk c'.mem r q = walk c.mem r q := by
  induction edits with
  | refl => rfl
  | tail before edit ih =>
    rw [(family.edits member before).edit_lower member root other edit low, ih]

theorem Family.edit_follow (edit : Edit t c c') (path : follow branches c'.mem 3 r xs = some g) :
    follow branches c.mem 3 r xs = some g ∨ ∀ j, c'.mem g j = 0#64 := by
  cases edit with
  | link linked =>
    cases linked with
    | intro prop place high absent taken =>
      have apart := (family.space member).apart place taken
      have fresh := (family.stocked _ (first_mem taken)).2 r root
      rcases (grown_link absent apart).follow_cases (fun ys reached => fresh ⟨ys, reached⟩) path
        with old | ⟨rfl, -⟩
      · exact .inl old
      · exact .inr fun _ => link_blank
  | leaf place last => exact .inl ((follow_leaf (family.aligned member root) place last).mp path)
  | drop => exact .inl ((clear_fewer c _ _).follow path)
  | close => exact .inl (follow_close path)

theorem Family.edit_entry (edit : Edit t c c') (reached : follow branches c.mem 3 r xs = some g) (high : xs.length ≤ 2)
    (i : Index) :
    c'.mem g i = c.mem g i ∨ isPresent (c'.mem g i) = false ∨
      ∃ f ∈ ram, ∃ prop, c'.mem g i = pageCreate (frameAddress f) prop ∧ ∀ j, c'.mem f j = 0#64 := by
  cases edit with
  | link linked =>
    cases linked with
    | @intro ys h f j rest prop place _ absent taken =>
      have fresh : g ≠ f := by
        rintro rfl
        exact (family.stocked g (first_mem taken)).2 r root ⟨xs, reached⟩
      by_cases edited : g = h ∧ i = j
      · obtain ⟨rfl, rfl⟩ := edited
        exact .inr (.inr ⟨f, (family.stocked f (first_mem taken)).1, prop, link_self fresh, fun _ => link_blank⟩)
      · exact .inl (link_of_ne fresh edited)
  | leaf place last =>
    refine .inl (write_of_ne ?_)
    rintro ⟨rfl, -⟩
    rw [family.separated.path member root place reached] at last
    omega
  | @drop ys h k j place _ _ links vacant =>
    by_cases edited : g = h ∧ i = j
    · obtain ⟨rfl, rfl⟩ := edited
      exact .inr (.inl clear_absent)
    · exact .inl (clear_of_ne edited)
  | close =>
    by_cases edited : g = c.cr3 ∧ i = recurseOther
    · obtain ⟨rfl, rfl⟩ := edited
      have zero : (c.setOther 0#64).mem c.cr3 recurseOther = 0#64 := write_self
      exact .inr (.inl (by rw [zero, isPresent_zero]))
    · exact .inl (write_of_ne edited)

theorem Family.edit_plain {ys : List Index} (edit : Edit t c c') (way : Way c.mem r xs g ys) :
    plain c'.mem g ys = true := by
  induction ys generalizing xs g with
  | nil => rfl
  | cons i ys ih =>
    rcases family.edit_entry member root edit way.place way.high i with same | gone | ⟨f, -, prop, entry, blank⟩
    · rw [plain, same]
      cases present : isPresent (c.mem g i) with
      | false => rfl
      | true =>
        obtain ⟨links, next⟩ := way.step present
        rw [ih next, links.small]
        rfl
    · simp [plain, gone]
    · rw [plain, entry, frameOf_pageCreate, frameOf_frameAddress, plain_blank blank, isHuge_pageCreate]
      simp

theorem Family.edits_plain {v : W64} (edits : Edits t c c') (outside : getPl4Index v ≠ recurseActive)
    (way : plain c.mem r (directories v) = true) : plain c'.mem r (directories v) = true := by
  induction edits with
  | refl => exact way
  | tail before edit ih => exact (family.edits member before).edit_plain member root edit (way_top outside ih)

end

/-- The tables of the active space hold no huge pages outside the mirror, and `vmm_get_entry` finds
    the tables that they refer to. -/
def Tidy (c : Core) : Prop := ∀ xs g i, follow branches c.mem 3 c.cr3 xs = some g → xs.length ≤ 2 →
  xs.head? ≠ some permSlot → isPresent (c.mem g i) = true → isHuge (c.mem g i) = false ∧ isEntry (c.mem g i) = true

theorem isEntry_pageCreate (small : f.toNat < 2 ^ 27) (prop : PageProperties) :
    isEntry (pageCreate (frameAddress f) prop) = true := by
  have other : (getPhysicalAddress (pageCreate (frameAddress f) prop)).toNat ≠ 2 ^ 47 := by
    rw [getPhysicalAddress_pageCreate, frameAddress_toNat]
    omega
  simp [isEntry, getMemAddress_ne other]

theorem Family.edits_tidy (family : Family c roots ram mirror) (member : t ∈ roots) (edits : Edits t c c')
    (tidy : Tidy c) : Tidy c' := by
  induction edits with
  | refl => exact tidy
  | @tail d d' before edit ih =>
    have family' := family.edits member before
    have root : d'.cr3 = d.cr3 := Edits.cr3 (.single edit)
    intro xs g i path high head present
    rw [root] at path
    rcases family'.edit_follow member family'.active edit path with old | blank
    · rcases family'.edit_entry member family'.active edit old high i with same | gone | ⟨f, inside, prop, entry, -⟩
      · rw [same] at present ⊢
        exact ih xs g i old high head present
      · rw [gone] at present
        cases present
      · rw [entry]
        exact ⟨isHuge_pageCreate _ _, isEntry_pageCreate (family'.mirrored f inside).small prop⟩
    · rw [blank i, isPresent_zero] at present
      cases present

end Effects

section Tidy

variable {c : Core} {g : Frame} {xs ys : List Index} {v : W64}

section

variable (tidy : Tidy c) (reached : follow branches c.mem 3 c.cr3 xs = some g)
include tidy reached

theorem Tidy.next {i : Index} (high : xs.length ≤ 2)
    (head : ∀ j rest, xs ++ i :: ys = j :: rest → j ≠ recurseActive ∧ j ≠ permSlot)
    (present : isPresent (c.mem g i) = true) : Links c.mem g i (frameOf (c.mem g i)) ∧
      follow branches c.mem 3 c.cr3 (xs ++ [i]) = some (frameOf (c.mem g i)) := by
  have first : xs.head? ≠ some permSlot := by
    intro slot
    cases xs with
    | nil => cases slot
    | cons a xs =>
      cases slot
      exact (head permSlot (xs ++ i :: ys) rfl).2 rfl
  have links : Links c.mem g i (frameOf (c.mem g i)) := ⟨present, (tidy xs g i reached high first present).1, rfl⟩
  refine ⟨links, follow_links reached high ?_ links⟩
  rintro rfl
  exact (head i ys rfl).1

theorem Tidy.plain_below (short : xs.length + ys.length ≤ 3)
    (head : ∀ i rest, xs ++ ys = i :: rest → i ≠ recurseActive ∧ i ≠ permSlot) :
    plain c.mem g ys = true := by
  induction ys generalizing xs g with
  | nil => rfl
  | cons i ys ih =>
    rw [List.length_cons] at short
    rw [plain]
    cases present : isPresent (c.mem g i) with
    | false => rfl
    | true =>
      obtain ⟨links, next⟩ := tidy.next reached (by omega) head present
      rw [List.append_cons] at head
      rw [ih next (by simp; omega) head, links.small]
      rfl

theorem Tidy.lookup_table {i : Index} (short : xs.length + ys.length ≤ 3)
    (head : ∀ j rest, xs ++ ys = j :: rest → j ≠ recurseActive ∧ j ≠ permSlot)
    (found : lookup hardware c.mem g (ys ++ [i]) ≠ none) :
    ∃ h, follow branches c.mem 3 c.cr3 (xs ++ ys) = some h := by
  induction ys generalizing xs g with
  | nil => exact ⟨g, by rw [List.append_nil, reached]⟩
  | cons j ys ih =>
    rw [List.length_cons] at short
    have present : isPresent (c.mem g j) = true := by
      by_contra absent
      apply found
      rw [List.cons_append, lookup, hardware_absent (by simpa using absent)]
    obtain ⟨links, next⟩ := tidy.next reached (by omega) head present
    rw [List.append_cons] at head ⊢
    refine ih next (by simp; omega) head fun gone => found ?_
    have table := @hardware_links c.mem g (frameOf (c.mem g j)) j (ys ++ [i]).length links (by simp) (by simp; omega)
    simp only [List.cons_append, lookup, table, gone, Option.map_none]

end

theorem Tidy.walk_table (tidy : Tidy c) (outside : getPl4Index v ≠ recurseActive ∧ getPl4Index v ≠ permSlot)
    (mapped : walk c.mem c.cr3 (pageNumber v) ≠ none) :
    ∃ h, follow branches c.mem 3 c.cr3 (directories v) = some h := by
  have root : follow branches c.mem 3 c.cr3 [] = some c.cr3 := rfl
  refine tidy.lookup_table root (Nat.le_refl 3) ?_ (i := getTabIndex v) fun gone => mapped ?_
  · intro i rest split
    rw [← (List.cons.inj split).1]
    exact outside
  · replace gone : lookup hardware c.mem c.cr3 (directories v ++ [getTabIndex v]) = none := gone
    rw [walk, directories_append, gone]
    split <;> rfl

theorem Tidy.plain_way (tidy : Tidy c) (outside : getPl4Index v ≠ recurseActive ∧ getPl4Index v ≠ permSlot) :
    plain c.mem c.cr3 (directories v) = true := by
  have root : follow branches c.mem 3 c.cr3 [] = some c.cr3 := rfl
  refine tidy.plain_below root (Nat.le_refl 3) ?_
  intro i rest split
  rw [← (List.cons.inj split).1]
  exact outside

end Tidy

section Edits

variable {c c' : Core} {t t1 t2 t3 g parent : Frame} {xs : List Index} {i : Index} {v physAddr : W64}
  {prop : PageProperties}

theorem Grows.edits (grows : Grows t c c') : Edits t c c' :=
  ReflTransGen.mono (fun _ _ linked => .link linked) _ _ grows

theorem shut_edits (c : Core) (t : Frame) : Edits t c (c.shut t) := by
  unfold Core.shut
  split
  · exact .refl
  · rename_i inactive
    exact .single (.close inactive)

theorem reclaim_edits (place : follow branches c.mem 3 t xs = some parent) (high : xs.length ≤ 2)
    (outside : xs = [] → i ≠ recurseActive) (links : Links c.mem parent i g) :
    Edits t c (c.reclaim g parent i) := by
  unfold Core.reclaim
  split
  · rename_i vacant
    exact .single (.drop place high outside links vacant)
  · exact .refl

theorem remove_edits (chain : Chain c.mem v t t1 t2 t3) (outside : getPl4Index v ≠ recurseActive)
    (tree : Tree c.mem t) :
    Edits t c (c.cut1 v t3) ∧ Edits t c (c.cut2 v t2 t3) ∧ Edits t c (c.cut3 v t1 t2 t3) ∧
    Edits t c (c.remove v t t1 t2 t3) := by
  obtain ⟨below, ⟨first, second⟩, first'⟩ := cut_links chain outside tree
  have leaf : Edits t c (c.cut1 v t3) := .single (.leaf (chain.last outside) rfl _ _)
  have last := leaf.trans (reclaim_edits (below.directory outside) (by simp) nofun below.third)
  have middle := last.trans (reclaim_edits (follow_pl4 first outside) (by simp) nofun second)
  have root : follow branches (c.cut3 v t1 t2 t3).mem 3 t [] = some t := rfl
  exact ⟨leaf, last, middle, middle.trans (reclaim_edits root (by simp) (fun _ => outside) first')⟩

theorem mapPage_edits (edit : Editable c t v) (taken : mapPage t physAddr v prop c = some ((), c')) :
    Edits t c c' := by
  obtain ⟨pt, c1, first, rfl⟩ := mapPage_cases taken
  obtain ⟨grows, place⟩ := edit.descend first
  exact grows.edits.tail (.leaf place rfl _ _)

theorem removePage_edits (edit : Editable c t v) (taken : removePage t v c = some ((), c')) :
    Edits t c c' := by
  obtain ⟨t1, t2, t3, c1, grows, chain, rfl, -⟩ := removePage_spec edit taken
  exact grows.edits.trans (remove_edits chain edit.outside (grows.space edit.space edit.space).tree).2.2.2

end Edits

section Calls

variable {m m' : Machine} {roots ram : Set Frame} {mirror : Frame} {table v physAddr : W64}
  {prop : PageProperties} {res : Bool}

theorem Family.editable {c : Core} {t : Frame} (family : Family c roots ram mirror) (member : t ∈ roots)
    (outside : getPl4Index v ≠ recurseActive) (way : plain c.mem t (directories v) = true) :
    Editable c t v := ⟨family.space member, outside, way⟩

variable (family : Family m.core roots ram mirror) (aligned : frameAddress (frameOf table) = table)
  (member : m.core.target table ∈ roots) (outside : getPl4Index v ≠ recurseActive)
  (way : plain m.core.mem (m.core.target table) (directories v) = true)
include family aligned member outside way

theorem Family.vmmMapPage_edits (taken : vmmMapPage table physAddr v prop m = some ((), m')) :
    Edits (m.core.target table) m.core m'.core := by
  have ready := family.ready member
  have edit := family.editable member outside way
  obtain ⟨⟨⟩, done, -⟩ := (vmmMapPage_simulates physAddr prop aligned ready edit).source taken
  exact (shut_edits _ _).trans (mapPage_edits (edit.shut ready.apart) done)

theorem Family.vmmUnmapPage_edits (taken : vmmUnmapPage table v m = some (res, m')) :
    Edits (m.core.target table) m.core m'.core := by
  have ready := family.ready member
  have edit := family.editable member outside way
  obtain ⟨⟨⟩, done, -⟩ := (vmmUnmapPage_simulates aligned ready edit).source taken
  exact (shut_edits _ _).trans (removePage_edits (edit.shut ready.apart) done)

end Calls

section Active

variable {m m' : Machine} {roots ram : Set Frame} {mirror f : Frame} {rest : List Frame}

theorem target_active {c : Core} {table : W64} (active : table = 0#64 ∨ table = frameAddress c.cr3) :
    frameAddress (frameOf table) = table ∧ c.target table = c.cr3 := by
  unfold Core.target
  rcases active with rfl | rfl
  · exact ⟨by decide, if_pos rfl⟩
  · refine ⟨by rw [frameOf_frameAddress], ?_⟩
    split
    · rfl
    · rw [frameOf_frameAddress]

variable (family : Family m.core roots ram mirror)
include family

theorem Family.taken_fresh {c : Core} (supply : m.core.supply = f :: rest)
    (edits : Edits m.core.cr3 (m.core.withSupply rest) c) : ∀ r ∈ roots, ¬ IsTable c.mem r f := by
  obtain ⟨later, unused⟩ := family.taken supply
  intro r member table
  rcases later.edits_tables family.active member edits table with old | new
  · exact (family.stocked f (first_mem supply)).2 r member old
  · exact unused new

theorem Family.vmmMapPage_active {table v physAddr : W64} {prop : PageProperties}
    (active : table = 0#64 ∨ table = frameAddress m.core.cr3) (outside : getPl4Index v ≠ recurseActive)
    (way : plain m.core.mem m.core.cr3 (directories v) = true)
    (taken : vmmMapPage table physAddr v prop m = some ((), m')) :
    mapPage m.core.cr3 physAddr v prop m.core = some ((), m'.core) := by
  obtain ⟨aligned, target⟩ := target_active active
  have member : m.core.target table ∈ roots := by
    rw [target]
    exact family.active
  have edit := family.editable member outside (by rw [target]; exact way)
  obtain ⟨⟨⟩, written, -⟩ := (vmmMapPage_simulates physAddr prop aligned (family.ready member) edit).source taken
  have same : m.core.shut m.core.cr3 = m.core := if_pos rfl
  replace written : mapPage (m.core.target table) physAddr v prop (m.core.shut (m.core.target table)) =
      some ((), m'.core) := written
  rw [target, same] at written
  exact written

theorem Family.vmmMapPage_total {table v : W64} (active : table = 0#64 ∨ table = frameAddress m.core.cr3)
    (outside : getPl4Index v ≠ recurseActive) (way : plain m.core.mem m.core.cr3 (directories v) = true)
    (physAddr : W64) (prop : PageProperties) (enough : 3 ≤ m.core.supply.length) :
    ∃ m', vmmMapPage table physAddr v prop m = some ((), m') := by
  obtain ⟨aligned, target⟩ := target_active active
  have member : m.core.target table ∈ roots := by
    rw [target]
    exact family.active
  rw [← target] at way
  rw [← shut_supply (t := m.core.target table)] at enough
  obtain ⟨c, done, -⟩ := @mapPage_total _ (m.core.target table) v physAddr prop enough
  obtain ⟨⟨⟩, m', taken, -⟩ := (vmmMapPage_simulates physAddr prop aligned (family.ready member)
    (family.editable member outside way)).yields done
  exact ⟨m', taken⟩

theorem Family.vmmUnmapPage_active {table v : W64} (active : table = 0#64 ∨ table = frameAddress m.core.cr3)
    (outside : getPl4Index v ≠ recurseActive) (way : plain m.core.mem m.core.cr3 (directories v) = true) :
    Ensures m (vmmUnmapPage table v) fun _ m' => Edits m.core.cr3 m.core m'.core := by
  obtain ⟨aligned, target⟩ := target_active active
  intro res m' taken
  rw [← target] at way ⊢
  refine family.vmmUnmapPage_edits aligned ?_ outside way taken
  rw [target]
  exact family.active

end Active

end Neutrino.Virtual
