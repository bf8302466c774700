import Neutrino.Virtual.Access
import Mathlib.Logic.Relation

namespace Neutrino.Virtual

open Library Relation

/-- The tables below a PML4, as the processor reads them, except through the recursive slot. -/
def branches (level : Nat) (i : Index) (e : W64) : Slot Frame :=
  if level = 3 ∧ i = recurseActive then .empty else hardware level i e

def IsTable (mem : Mem) (root f : Frame) : Prop := ∃ xs, follow branches mem 3 root xs = some f

/-- No entry of the space refers to the root, and one to each other table. -/
def Tree (mem : Mem) (root : Frame) : Prop :=
  ∀ xs ys f, follow branches mem 3 root xs = some f → follow branches mem 3 root ys = some f → xs = ys

section Branches

variable {mem : Mem} {root f g h : Frame} {i : Index} {level : Nat} {e : W64}

theorem branches_absent (absent : isPresent e = false) : branches level i e = .empty := by
  unfold branches
  split
  · rfl
  · exact hardware_absent absent

theorem branches_links (links : Links mem g i h) (low : 1 ≤ level) (high : level ≤ 3)
    (inside : level = 3 → i ≠ recurseActive) : branches level i (mem g i) = .table h := by
  have here : ¬ (level = 3 ∧ i = recurseActive) := fun both => inside both.1 both.2
  rw [branches, if_neg here, hardware_links links low high]

theorem branches_table (found : branches level i (mem g i) = .table h) :
    Links mem g i h ∧ 1 ≤ level ∧ level ≤ 3 ∧ ¬ (level = 3 ∧ i = recurseActive) := by
  unfold branches at found
  split at found
  · cases found
  · rename_i inside
    unfold hardware at found
    split at found
    · rename_i present
      -- a table of each level above the last is read in the same way
      split at found
      · cases found
      all_goals
        first
        | cases found
        | split at found
          · cases found
          · rename_i small
            cases found
            exact ⟨⟨present, by simpa using small, rfl⟩, by decide, by decide, inside⟩
    · cases found

theorem branches_last : branches 0 i e ≠ .table h := by
  rw [branches, if_neg (by omega), hardware]
  split <;> simp

theorem follow_below {level : Nat} {xs : List Index} (below : level < 3) :
    follow branches mem level g xs = follow hardware mem level g xs := by
  induction xs generalizing level g with
  | nil => rfl
  | cons i xs ih =>
    have here : branches level i (mem g i) = hardware level i (mem g i) := by
      rw [branches, if_neg]
      rintro ⟨top, -⟩
      omega
    have deeper : ∀ h, follow branches mem (level - 1) h xs = follow hardware mem (level - 1) h xs :=
      fun h => ih (by omega)
    simp only [follow, here, deeper]

theorem follow_hardware {i : Index} {xs : List Index} (outside : i ≠ recurseActive) :
    follow branches mem 3 g (i :: xs) = follow hardware mem 3 g (i :: xs) := by
  have here : branches 3 i (mem g i) = hardware 3 i (mem g i) := by
    rw [branches, if_neg fun both => outside both.2]
  have deeper : ∀ h, follow branches mem 2 h xs = follow hardware mem 2 h xs :=
    fun h => follow_below (by decide)
  simp only [follow, here, deeper, Nat.add_one_sub_one]

theorem lookup_branches {w : List Index} (inside : ∀ i rest, w = i :: rest → rest.length = 3 → i ≠ recurseActive)
    (short : w.length ≤ 4) : lookup branches mem g w = lookup hardware mem g w := by
  induction w generalizing g with
  | nil => rfl
  | cons i rest ih =>
    have here : branches rest.length i (mem g i) = hardware rest.length i (mem g i) := by
      rw [branches, if_neg]
      rintro ⟨level, member⟩
      exact inside i rest rfl level member
    have deeper : ∀ h, lookup branches mem h rest = lookup hardware mem h rest := by
      intro h
      rw [List.length_cons] at short
      apply ih
      · intro j rest' split level
        rw [split, List.length_cons] at short
        omega
      · omega
    simp only [lookup, here, deeper]

theorem Tree.separated (tree : Tree mem root) :
    Separated branches mem 3 {root} fun _ => False where
  path member member' first second := by
    cases member
    cases member'
    exact tree _ _ _ first second
  root _ _ _ _ owned := owned.elim

theorem Tree.of_separated {roots : Set Frame} {own : List Index → Prop}
    (separated : Separated branches mem 3 roots own) (member : root ∈ roots) :
    Tree mem root :=
  fun _ _ _ first second => separated.path member member first second

end Branches

/-- What `vmm_create_entry` does to memory. -/
def Mem.link (mem : Mem) (g : Frame) (i : Index) (f : Frame) (prop : PageProperties) : Mem :=
  Function.update (mem.write g i (pageCreate (frameAddress f) prop)) f fun _ => 0#64

section Link

variable {mem : Mem} {f g h : Frame} {i j : Index} {prop : PageProperties}

theorem link_blank : mem.link g i f prop f j = 0#64 := by simp [Mem.link]

theorem link_self (apart : g ≠ f) : mem.link g i f prop g i = pageCreate (frameAddress f) prop := by
  rw [Mem.link, Function.update_of_ne apart, write_self]

theorem link_of_ne (apart : h ≠ f) (other : ¬ (h = g ∧ j = i)) : mem.link g i f prop h j = mem h j := by
  rw [Mem.link, Function.update_of_ne apart, write_of_ne other]

theorem link_present (apart : h ≠ f) (absent : isPresent (mem g i) = false)
    (present : isPresent (mem h j) = true) : mem.link g i f prop h j = mem h j := by
  apply link_of_ne apart
  rintro ⟨rfl, rfl⟩
  rw [absent] at present
  cases present

theorem links_link (apart : g ≠ f) : Links (mem.link g i f prop) g i f :=
  links_pageCreate prop (link_self apart)

theorem grown_link (absent : isPresent (mem g i) = false) (apart : g ≠ f) :
    Grown branches mem (mem.link g i f prop) g i f where
  empty _ := branches_absent absent
  same _ _ other unedited := link_of_ne other unedited
  link level h found := by
    obtain ⟨links, -⟩ := branches_table found
    rw [← links.frame, (links_link apart).frame]
  blank level j := by
    rw [link_blank]
    exact branches_absent isPresent_zero

end Link

def Core.link (c : Core) (g : Frame) (i : Index) (f : Frame) (prop : PageProperties)
    (rest : List Frame) : Core :=
  (c.withSupply rest).withMem (c.mem.link g i f prop)

abbrev CoreM := StateT Core Option

-- The code of `mem_virt.c` on the frames themselves.

def create (prop : PageProperties) (g : Frame) (i : Index) : CoreM Frame := fun c =>
  match c.supply with
  | [] => none
  | f :: rest => some (f, c.link g i f prop rest)

def ensure (prop : PageProperties) (g : Frame) (i : Index) : CoreM Frame := fun c =>
  if isPresent (c.mem g i) then some (frameOf (c.mem g i), c) else create prop g i c

def descend (prop : PageProperties) : Frame → List Index → CoreM Frame
  | g, [] => pure g
  | g, i :: rest => do descend prop (← ensure prop g i) rest

/-- The path meets no huge page. -/
def plain (mem : Mem) : Frame → List Index → Bool
  | _, [] => true
  | g, i :: rest => !isPresent (mem g i) || (!isHuge (mem g i) && plain mem (frameOf (mem g i)) rest)

/-- A frame of the supply becomes an empty table of the space `t`. -/
inductive Linked (t : Frame) (c : Core) : Core → Prop
  | intro {xs : List Index} {g f : Frame} {i : Index} {rest : List Frame} (prop : PageProperties)
    (place : follow branches c.mem 3 t xs = some g) (high : xs.length ≤ 2)
    (absent : isPresent (c.mem g i) = false) (taken : c.supply = f :: rest) :
    Linked t c (c.link g i f prop rest)

abbrev Grows (t : Frame) : Core → Core → Prop := ReflTransGen (Linked t)

/-- A space whose tables form a tree without the frames of the supply. -/
structure Space (c : Core) (r : Frame) : Prop where
  tree : Tree c.mem r
  fresh : ∀ f ∈ c.supply, ¬ IsTable c.mem r f
  nodup : c.supply.Nodup

section Linked

variable {t r f g : Frame} {c c' : Core} {i : Index} {prop : PageProperties}
  {xs ys : List Index}

theorem first_mem {rest : List Frame} (taken : c.supply = f :: rest) : f ∈ c.supply := by
  rw [taken]
  exact List.mem_cons_self

theorem ensure_cases (taken : ensure prop g i c = some (f, c')) :
    (isPresent (c.mem g i) = true ∧ f = frameOf (c.mem g i) ∧ c' = c) ∨
      isPresent (c.mem g i) = false ∧ ∃ rest, c.supply = f :: rest ∧
        c' = c.link g i f prop rest := by
  unfold ensure at taken
  split at taken
  · rename_i present
    cases taken
    exact .inl ⟨present, rfl, rfl⟩
  · rename_i absent
    unfold create at taken
    split at taken
    · cases taken
    · rename_i h rest supply
      cases taken
      exact .inr ⟨by simpa using absent, rest, supply, rfl⟩

theorem Space.link {rest : List Frame} (space : Space c r) (absent : isPresent (c.mem g i) = false)
    (apart : g ≠ f) (taken : c.supply = f :: rest) :
    Space (c.link g i f prop rest) r := by
  have grown : Grown branches c.mem (c.mem.link g i f prop) g i f := grown_link absent apart
  have unused : ∀ ys, follow branches c.mem 3 r ys ≠ some f := by
    intro ys path
    exact space.fresh f (first_mem taken) ⟨ys, path⟩
  have nodup := space.nodup
  rw [taken, List.nodup_cons] at nodup
  refine ⟨Tree.of_separated (space.tree.separated.grow grown ?_ fun _ _ owned => owned) rfl, ?_, nodup.2⟩
  · rintro s rfl ys
    exact unused ys
  · rintro h member ⟨ys, path⟩
    rcases grown.follow_cases unused path with old | ⟨rfl, -⟩
    · exact space.fresh h (by rw [taken]; exact List.mem_cons_of_mem f member) ⟨ys, old⟩
    · exact nodup.1 member

theorem Space.apart {rest : List Frame} (space : Space c r)
    (place : follow branches c.mem 3 r xs = some g) (taken : c.supply = f :: rest) : g ≠ f := by
  rintro rfl
  exact space.fresh g (first_mem taken) ⟨xs, place⟩

theorem Space.linked (space : Space c r) (target : Space c t) (linked : Linked t c c') :
    Space c' r := by
  cases linked with
  | intro prop place high absent taken =>
    exact space.link absent (target.apart place taken) taken

theorem Linked.follow_eq (linked : Linked t c c') (target : Space c t) (space : Space c r)
    (path : follow branches c.mem 3 r xs = some f) :
    follow branches c'.mem 3 r xs = some f := by
  cases linked with
  | intro prop place high absent taken =>
    refine (grown_link absent (target.apart place taken)).follow_old ?_ path
    intro ys reached
    exact space.fresh _ (first_mem taken) ⟨ys, reached⟩

theorem Linked.tables (linked : Linked t c c') (target : Space c t) (space : Space c r)
    (table : IsTable c'.mem r g) : IsTable c.mem r g ∨ g ∈ c.supply := by
  obtain ⟨xs, path⟩ := table
  cases linked with
  | intro prop place high absent taken =>
    have first := first_mem taken
    rcases (grown_link absent (target.apart place taken)).follow_cases
      (fun zs reached => space.fresh _ first ⟨zs, reached⟩) path with old | ⟨rfl, -⟩
    · exact .inl ⟨xs, old⟩
    · exact .inr first

theorem Linked.present {j : Index} (linked : Linked t c c') (used : g ∉ c.supply)
    (present : isPresent (c.mem g j) = true) : c'.mem g j = c.mem g j := by
  cases linked with
  | intro prop place high absent taken =>
    refine link_present ?_ absent present
    rintro rfl
    exact used (first_mem taken)

theorem Linked.supply (linked : Linked t c c') : c'.supply ⊆ c.supply := by
  cases linked with
  | intro prop place high absent taken =>
    rw [taken]
    exact List.subset_cons_self _ _

/-- Tables of the two spaces that are shared sit at the same place. -/
def Aligned (mem : Mem) (t r : Frame) : Prop :=
  ∀ xs ys f, follow branches mem 3 t xs = some f →
    follow branches mem 3 r ys = some f → xs = ys

theorem Aligned.linked (aligned : Aligned c.mem t r) (target : Space c t)
    (space : Space c r) (linked : Linked t c c') : Aligned c'.mem t r := by
  cases linked with
  | @intro zs g f i rest prop place high absent taken =>
    have apart := target.apart place taken
    have first := first_mem taken
    intro xs ys h here there
    rcases (grown_link absent apart).follow_cases (fun zs path => target.fresh f first ⟨zs, path⟩) here
      with old | ⟨rfl, xs', rfl, up⟩
    · rcases (grown_link absent apart).follow_cases (fun zs path => space.fresh f first ⟨zs, path⟩) there
        with old' | ⟨rfl, -⟩
      · exact aligned xs ys h old old'
      · exact absurd ⟨xs, old⟩ (target.fresh h first)
    · rcases (grown_link absent apart).follow_cases (fun zs path => space.fresh h first ⟨zs, path⟩) there
        with old' | ⟨-, ys', rfl, up'⟩
      · exact absurd ⟨ys, old'⟩ (space.fresh h first)
      · rw [aligned xs' ys' g up up']

theorem Linked.lookup_eq {w : List Index} (linked : Linked t c c') (target : Space c t)
    (space : Space c r) (aligned : Aligned c.mem t r) (four : w.length = 4) :
    lookup branches c'.mem r w = lookup branches c.mem r w := by
  cases linked with
  | @intro xs g f i rest prop place high absent taken =>
    have apart := target.apart place taken
    have top : w.length - 1 = 3 := by omega
    apply (grown_link absent apart).lookup_eq
    · intro ys reached
      rw [top] at reached
      exact space.fresh f (first_mem taken) ⟨ys, reached⟩
    · -- the entry is that of a table above the last level, where the link is no page
      intro ys reached
      rw [top] at reached ⊢
      cases aligned xs ys g place reached
      by_cases inside : 3 - xs.length = 3 ∧ i = recurseActive
      · simp [branches, inside]
      · rw [branches_links (links_link apart) (by omega) (by omega)
          fun level member => inside ⟨level, member⟩]
        simp

end Linked

namespace Grows

variable {t r f g : Frame} {c c' : Core} {i : Index} {xs : List Index}
  (grows : Grows t c c')
include grows

theorem space (target : Space c t) (space : Space c r) : Space c' r := by
  have both : Space c' t ∧ Space c' r := by
    induction grows with
    | refl => exact ⟨target, space⟩
    | tail _ linked ih => exact ⟨ih.1.linked ih.1 linked, ih.2.linked ih.1 linked⟩
  exact both.2

theorem follow_eq (target : Space c t) (space : Space c r)
    (path : follow branches c.mem 3 r xs = some f) :
    follow branches c'.mem 3 r xs = some f := by
  induction grows with
  | refl => exact path
  | tail before linked ih =>
    exact linked.follow_eq (Grows.space before target target) (Grows.space before target space) ih

theorem aligned (target : Space c t) (space : Space c r)
    (aligned : Aligned c.mem t r) : Aligned c'.mem t r := by
  induction grows with
  | refl => exact aligned
  | tail before linked ih =>
    exact ih.linked (Grows.space before target target) (Grows.space before target space) linked

theorem lookup_eq {w : List Index} (target : Space c t) (space : Space c r)
    (aligned : Aligned c.mem t r) (four : w.length = 4) :
    lookup branches c'.mem r w = lookup branches c.mem r w := by
  induction grows with
  | refl => rfl
  | tail before linked ih =>
    rw [linked.lookup_eq (Grows.space before target target) (Grows.space before target space)
      (Grows.aligned before target space aligned) four, ih]

theorem supply : c'.supply ⊆ c.supply := by
  induction grows with
  | refl => exact fun _ member => member
  | tail _ linked ih => exact fun f member => ih (linked.supply member)

theorem tables (target : Space c t) (space : Space c r) (table : IsTable c'.mem r g) :
    IsTable c.mem r g ∨ g ∈ c.supply := by
  induction grows with
  | refl => exact .inl table
  | tail before linked ih =>
    rcases linked.tables (Grows.space before target target) (Grows.space before target space) table
      with old | new
    · exact ih old
    · exact .inr (Grows.supply before new)

theorem present (used : g ∉ c.supply) (present : isPresent (c.mem g i) = true) :
    c'.mem g i = c.mem g i := by
  induction grows with
  | refl => rfl
  | tail before linked ih =>
    have unused := fun member => used (Grows.supply before member)
    rw [linked.present unused (by rw [ih]; exact present), ih]

theorem links {h : Frame} (used : g ∉ c.supply) (links : Links c.mem g i h) : Links c'.mem g i h :=
  links.congr (grows.present used links.present)

theorem other : c'.cr3 = c.cr3 ∧ c'.initialized = c.initialized ∧ c'.freed = c.freed := by
  induction grows with
  | refl => exact ⟨rfl, rfl, rfl⟩
  | tail _ linked ih =>
    cases linked with
    | intro => exact ih

end Grows

/-- A table that the indices `xs` reach and from which the indices `ys` lead on. -/
structure Way (mem : Mem) (t : Frame) (xs : List Index) (g : Frame) (ys : List Index) : Prop where
  place : follow branches mem 3 t xs = some g
  short : xs.length + ys.length ≤ 3
  outside : ∀ i rest, xs ++ ys = i :: rest → i ≠ recurseActive
  clear : plain mem g ys = true

section Descend

variable {t f g : Frame} {c c' : Core} {i : Index} {prop : PageProperties} {xs ys : List Index}

theorem plain_cons {mem : Mem} (way : plain mem g (i :: ys) = true) (present : isPresent (mem g i) = true) :
    isHuge (mem g i) = false ∧ plain mem (frameOf (mem g i)) ys = true := by
  simpa [plain, present] using way

theorem plain_blank {mem : Mem} (blank : ∀ j, mem g j = 0#64) : plain mem g ys = true := by
  cases ys with
  | nil => rfl
  | cons j ys => simp [plain, blank, isPresent_zero]

theorem follow_links {mem : Mem} (place : follow branches mem 3 t xs = some g) (high : xs.length ≤ 2)
    (outside : xs = [] → i ≠ recurseActive) (links : Links mem g i f) : follow branches mem 3 t (xs ++ [i]) = some f :=
  follow_snoc place <| branches_links links (by omega) (by omega) fun top =>
    outside (List.length_eq_zero_iff.mp (by omega))

section

variable {mem mem' : Mem} (way : Way mem t xs g (i :: ys))
include way

theorem Way.high : xs.length ≤ 2 := by
  have short := way.short
  rw [List.length_cons] at short
  omega

theorem Way.here : xs = [] → i ≠ recurseActive := by
  rintro rfl
  exact way.outside i ys rfl

theorem Way.on (place : follow branches mem' 3 t (xs ++ [i]) = some f) (clear : plain mem' f ys = true) :
    Way mem' t (xs ++ [i]) f ys := by
  refine ⟨place, ?_, by simpa using way.outside, clear⟩
  rw [List.length_append, List.length_singleton, Nat.add_assoc, Nat.add_comm 1]
  exact way.short

theorem Way.step (present : isPresent (mem g i) = true) :
    Links mem g i (frameOf (mem g i)) ∧ Way mem t (xs ++ [i]) (frameOf (mem g i)) ys := by
  obtain ⟨small, deeper⟩ := plain_cons way.clear present
  have links : Links mem g i (frameOf (mem g i)) := ⟨present, small, rfl⟩
  exact ⟨links, way.on (follow_links way.place way.high way.here links) deeper⟩

end

theorem Way.ensure (way : Way c.mem t xs g (i :: ys)) (target : Space c t)
    (taken : ensure prop g i c = some (f, c')) :
    Grows t c c' ∧ Links c'.mem g i f ∧ Way c'.mem t (xs ++ [i]) f ys := by
  rcases ensure_cases taken with ⟨present, rfl, rfl⟩ | ⟨absent, rest, supply, rfl⟩
  · exact ⟨.refl, way.step present⟩
  · have linked : Linked t c (c.link g i f prop rest) := .intro prop way.place way.high absent supply
    have links : Links (c.mem.link g i f prop) g i f := links_link (target.apart way.place supply)
    have place := follow_links (linked.follow_eq target target way.place) way.high way.here links
    exact ⟨.single linked, links, way.on place (plain_blank fun j => link_blank)⟩

theorem Way.descend (way : Way c.mem t xs g ys) (target : Space c t) (taken : descend prop g ys c = some (f, c')) :
    Grows t c c' ∧ follow branches c'.mem 3 t (xs ++ ys) = some f := by
  induction ys generalizing xs g c with
  | nil =>
    cases taken
    rw [List.append_nil]
    exact ⟨.refl, way.place⟩
  | cons i ys ih =>
    obtain ⟨h, c1, first, rest⟩ := bind_some taken
    obtain ⟨grows, -, next⟩ := way.ensure target first
    have ⟨after, reached⟩ := ih next (grows.space target target) rest
    rw [List.append_assoc] at reached
    exact ⟨grows.trans after, reached⟩

theorem ensure_total (prop : PageProperties) (g : Frame) (i : Index) (enough : c.supply ≠ []) :
    ∃ f c', ensure prop g i c = some (f, c') ∧ c.supply.length ≤ c'.supply.length + 1 := by
  unfold ensure
  split
  · exact ⟨_, c, rfl, Nat.le_succ _⟩
  · cases supply : c.supply with
    | nil => exact absurd supply enough
    | cons f rest =>
      simp only [create, supply]
      exact ⟨f, _, rfl, Nat.le_refl _⟩

theorem descend_total (prop : PageProperties) (g : Frame) (enough : ys.length ≤ c.supply.length) :
    ∃ f c', descend prop g ys c = some (f, c') ∧ c.supply.length ≤ c'.supply.length + ys.length := by
  induction ys generalizing g c with
  | nil => exact ⟨g, c, rfl, Nat.le_refl _⟩
  | cons i ys ih =>
    rw [List.length_cons] at enough
    have left : c.supply ≠ [] := List.length_pos_iff.mp (by omega)
    obtain ⟨h, c1, first, fewer⟩ := ensure_total prop g i left
    obtain ⟨f, c', rest, last⟩ := ih h (c := c1) (by omega)
    refine ⟨f, c', ?_, by rw [List.length_cons]; omega⟩
    simp only [descend, Bind.bind, StateT.bind, first, Option.bind]
    exact rest

end Descend

end Neutrino.Virtual
