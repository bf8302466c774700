import Mathlib.Data.Set.Insert
import Mathlib.Logic.Function.Basic

namespace Library

/-- What an entry of a table stands for. -/
inductive Slot (Node : Type)
  | empty
  | table (node : Node)
  | page
  deriving DecidableEq

section Walks

variable {Node Index Entry : Type} (decode : Nat → Index → Entry → Slot Node)

/-- The walk of a table down a list of indices. An entry is decoded at the level given by the
    number of indices behind it, and a page ends the walk. The result has the entries met and the
    indices left. -/
def lookup (mem : Node → Index → Entry) : Node → List Index → Option (List Entry × List Index)
  | _, [] => none
  | n, i :: rest =>
    match decode rest.length i (mem n i) with
    | .empty => none
    | .page => some ([mem n i], rest)
    | .table m => (lookup mem m rest).map fun (entries, left) => (mem n i :: entries, left)

/-- The table that indices lead to, from a table of the given level. -/
def follow (mem : Node → Index → Entry) : Nat → Node → List Index → Option Node
  | _, n, [] => some n
  | level, n, i :: rest =>
    match decode level i (mem n i) with
    | .table m => follow mem (level - 1) m rest
    | .empty | .page => none

variable {decode} {mem mem' : Node → Index → Entry} {n m f g h : Node} {i : Index} {level : Nat}
  {xs ys w : List Index}

theorem follow_cons (here : decode level i (mem n i) = .table m) :
    follow decode mem level n (i :: xs) = follow decode mem (level - 1) m xs := by
  simp only [follow, here]

theorem follow_cons_some (path : follow decode mem level n (i :: xs) = some f) :
    ∃ m, decode level i (mem n i) = .table m ∧ follow decode mem (level - 1) m xs = some f := by
  simp only [follow] at path
  split at path
  · rename_i m here
    exact ⟨m, here, path⟩
  · cases path
  · cases path

theorem follow_append (first : follow decode mem level n xs = some m) :
    follow decode mem level n (xs ++ ys) = follow decode mem (level - xs.length) m ys := by
  induction xs generalizing level n with
  | nil =>
    cases first
    rfl
  | cons i xs ih =>
    obtain ⟨next, here, rest⟩ := follow_cons_some first
    rw [List.cons_append, follow_cons here, ih rest, List.length_cons, Nat.sub_sub, Nat.add_comm]

theorem follow_snoc (first : follow decode mem level n xs = some m)
    (here : decode (level - xs.length) i (mem m i) = .table h) :
    follow decode mem level n (xs ++ [i]) = some h := by
  rw [follow_append first, follow_cons here]
  rfl

theorem follow_snoc_some (path : follow decode mem level n (xs ++ [i]) = some h) :
    ∃ m, follow decode mem level n xs = some m ∧ decode (level - xs.length) i (mem m i) = .table h := by
  induction xs generalizing level n with
  | nil =>
    obtain ⟨m, here, rest⟩ := follow_cons_some path
    cases rest
    exact ⟨n, rfl, here⟩
  | cons j xs ih =>
    obtain ⟨next, here, rest⟩ := follow_cons_some path
    obtain ⟨m, reached, last⟩ := ih rest
    refine ⟨m, by rw [follow_cons here, reached], ?_⟩
    rw [List.length_cons, Nat.add_comm, ← Nat.sub_sub]
    exact last

theorem lookup_follow (path : follow decode mem (w.length - 1) n xs = some m) (split : w = xs ++ ys)
    (more : ys ≠ []) : ∃ above, lookup decode mem n w =
      (lookup decode mem m ys).map fun found => (above ++ found.1, found.2) := by
  induction xs generalizing n w with
  | nil =>
    cases path
    subst split
    exact ⟨[], by simp⟩
  | cons i xs ih =>
    subst split
    obtain ⟨next, here, rest⟩ := follow_cons_some path
    rw [List.cons_append, List.length_cons, Nat.add_sub_cancel] at here rest
    obtain ⟨above, found⟩ := ih rest rfl
    refine ⟨mem n i :: above, ?_⟩
    simp only [List.cons_append, lookup, here, found, Option.map_map]
    rfl

theorem follow_of_edits
    (edits : ∀ ys i m h, follow decode mem level n ys = some m →
      decode (level - ys.length) i (mem' m i) = .table h →
      decode (level - ys.length) i (mem m i) = .table h)
    (path : follow decode mem' level n xs = some f) : follow decode mem level n xs = some f := by
  induction xs generalizing level n with
  | nil => exact path
  | cons i xs ih =>
    obtain ⟨m, here, rest⟩ := follow_cons_some path
    have before := edits [] i n m rfl here
    simp only [List.length_nil, Nat.sub_zero] at before
    rw [follow_cons before]
    refine ih (fun ys j k h reached linked => ?_) rest
    have deeper : follow decode mem level n (i :: ys) = some k := by
      rw [follow_cons before]
      exact reached
    have same : level - (i :: ys).length = level - 1 - ys.length := by
      rw [List.length_cons]
      omega
    have kept := edits (i :: ys) j k h deeper
    rw [same] at kept
    exact kept linked

theorem lookup_of_edits
    (edits : ∀ xs i rest m, w = xs ++ i :: rest → follow decode mem (w.length - 1) n xs = some m →
      mem' m i = mem m i ∨
        lookup decode mem m (i :: rest) = none ∧ lookup decode mem' m (i :: rest) = none) :
    lookup decode mem' n w = lookup decode mem n w := by
  induction w generalizing n with
  | nil => rfl
  | cons i rest ih =>
    rcases edits [] i rest n rfl rfl with same | ⟨before, after⟩
    · simp only [lookup, same]
      cases here : decode rest.length i (mem n i) with
      | empty | page => rfl
      | table m =>
        simp only
        rw [ih]
        intro xs j rest' k split reached
        refine edits (i :: xs) j rest' k (by rw [split, List.cons_append]) ?_
        rw [List.length_cons, Nat.add_sub_cancel, follow_cons here]
        exact reached
    · rw [before, after]

/-- An empty entry of `g` becomes a link to the blank table `f`. -/
structure Grown (decode : Nat → Index → Entry → Slot Node) (mem mem' : Node → Index → Entry)
    (g : Node) (i : Index) (f : Node) : Prop where
  empty : ∀ level, decode level i (mem g i) = .empty
  same : ∀ m j, m ≠ f → ¬ (m = g ∧ j = i) → mem' m j = mem m j
  link : ∀ level h, decode level i (mem' g i) = .table h → h = f
  blank : ∀ level j, decode level j (mem' f j) = .empty

namespace Grown

variable (grown : Grown decode mem mem' g i f)
include grown

theorem lookup_blank (rest : List Index) : lookup decode mem' f rest = none := by
  cases rest with
  | nil => rfl
  | cons j rest => simp only [lookup, grown.blank]

theorem follow_blank (path : follow decode mem' level f xs = some h) : xs = [] ∧ h = f := by
  cases xs with
  | nil =>
    cases path
    exact ⟨rfl, rfl⟩
  | cons j xs =>
    obtain ⟨m, here, -⟩ := follow_cons_some path
    rw [grown.blank] at here
    cases here

theorem follow_cases (fresh : ∀ ys, follow decode mem level n ys ≠ some f)
    (path : follow decode mem' level n xs = some h) :
    follow decode mem level n xs = some h ∨
      h = f ∧ ∃ ys, xs = ys ++ [i] ∧ follow decode mem level n ys = some g := by
  induction xs generalizing level n with
  | nil => exact .inl path
  | cons j xs ih =>
    obtain ⟨m, here, rest⟩ := follow_cons_some path
    have apart : n ≠ f := fun same => fresh [] (by rw [same]; rfl)
    by_cases edited : n = g ∧ j = i
    · obtain ⟨rfl, rfl⟩ := edited
      cases grown.link _ _ here
      obtain ⟨rfl, rfl⟩ := grown.follow_blank rest
      exact .inr ⟨rfl, [], rfl, rfl⟩
    · rw [grown.same n j apart edited] at here
      have deeper : ∀ ys, follow decode mem (level - 1) m ys ≠ some f := by
        intro ys reached
        apply fresh (j :: ys)
        rw [follow_cons here]
        exact reached
      rcases ih deeper rest with old | ⟨new, ys, split, parent⟩
      · exact .inl (by rw [follow_cons here]; exact old)
      · refine .inr ⟨new, j :: ys, by rw [split, List.cons_append], ?_⟩
        rw [follow_cons here]
        exact parent

theorem follow_old (apart : ∀ ys, follow decode mem level n ys ≠ some f)
    (path : follow decode mem level n xs = some h) : follow decode mem' level n xs = some h := by
  induction xs generalizing level n with
  | nil => exact path
  | cons j xs ih =>
    obtain ⟨m, here, rest⟩ := follow_cons_some path
    have other : n ≠ f := fun same => apart [] (by rw [same]; rfl)
    have unedited : ¬ (n = g ∧ j = i) := by
      rintro ⟨rfl, rfl⟩
      rw [grown.empty] at here
      cases here
    have deeper : ∀ ys, follow decode mem (level - 1) m ys ≠ some f := by
      intro ys reached
      apply apart (j :: ys)
      rw [follow_cons here]
      exact reached
    have kept : decode level j (mem' n j) = .table m := by rw [grown.same n j other unedited, here]
    rw [follow_cons kept]
    exact ih deeper rest

theorem lookup_eq (fresh : ∀ ys, follow decode mem (w.length - 1) n ys ≠ some f)
    (above : ∀ ys, follow decode mem (w.length - 1) n ys = some g →
      decode (w.length - 1 - ys.length) i (mem' g i) ≠ .page) :
    lookup decode mem' n w = lookup decode mem n w := by
  apply lookup_of_edits
  intro ys j rest m split reached
  by_cases edited : m = g ∧ j = i
  · obtain ⟨rfl, rfl⟩ := edited
    have level : w.length - 1 - ys.length = rest.length := by
      rw [split, List.length_append, List.length_cons]
      omega
    have noPage := above ys reached
    rw [level] at noPage
    refine .inr ⟨by simp only [lookup, grown.empty], ?_⟩
    cases here : decode rest.length j (mem' m j) with
    | empty => simp only [lookup, here]
    | page => exact absurd here noPage
    | table h =>
      cases grown.link _ _ here
      simp only [lookup, here, grown.lookup_blank, Option.map_none]
  · have apart : m ≠ f := by
      rintro rfl
      exact fresh ys reached
    exact .inl (grown.same m j apart edited)

end Grown

/-- The tables below several roots: each sits at one place, the same for all roots that share it,
    and at an `own` place it has one root only. -/
structure Separated (decode : Nat → Index → Entry → Slot Node) (mem : Node → Index → Entry)
    (level : Nat) (roots : Set Node) (own : List Index → Prop) : Prop where
  path : ∀ {r r' f xs ys}, r ∈ roots → r' ∈ roots → follow decode mem level r xs = some f →
    follow decode mem level r' ys = some f → xs = ys
  root : ∀ {r r' f xs}, r ∈ roots → r' ∈ roots → follow decode mem level r xs = some f →
    follow decode mem level r' xs = some f → own xs → r = r'

namespace Separated

variable {roots roots' : Set Node} {own : List Index → Prop}

variable (sep : Separated decode mem level roots own)
include sep

theorem mono (fewer : roots' ⊆ roots) (old : ∀ r ∈ roots', ∀ xs f, follow decode mem' level r xs = some f →
      follow decode mem level r xs = some f) : Separated decode mem' level roots' own where
  path member member' first second :=
    sep.path (fewer member) (fewer member') (old _ member _ _ first) (old _ member' _ _ second)
  root member member' first second :=
    sep.root (fewer member) (fewer member') (old _ member _ _ first) (old _ member' _ _ second)

theorem grow (grown : Grown decode mem mem' g i f) (fresh : ∀ r ∈ roots, ∀ ys, follow decode mem level r ys ≠ some f)
    (parent : ∀ xs j, own (xs ++ [j]) → own xs) : Separated decode mem' level roots own where
  path {r r' h xs ys} member member' first second := by
    rcases grown.follow_cases (fresh r member) first with old | ⟨rfl, xs', rfl, up⟩
    · rcases grown.follow_cases (fresh r' member') second with old' | ⟨rfl, -⟩
      · exact sep.path member member' old old'
      · exact absurd old (fresh r member xs)
    · rcases grown.follow_cases (fresh r' member') second with old' | ⟨-, ys', rfl, up'⟩
      · exact absurd old' (fresh r' member' ys)
      · rw [sep.path member member' up up']
  root {r r' h xs} member member' first second owned := by
    rcases grown.follow_cases (fresh r member) first with old | ⟨rfl, xs', rfl, up⟩
    · rcases grown.follow_cases (fresh r' member') second with old' | ⟨rfl, -⟩
      · exact sep.root member member' old old' owned
      · exact absurd old (fresh r member xs)
    · rcases grown.follow_cases (fresh r' member') second with old' | ⟨-, ys', split, up'⟩
      · exact absurd old' (fresh r' member' _)
      · have same : xs' = ys' := List.append_cancel_right split
        rw [← same] at up'
        exact sep.root member member' up up' (parent xs' i owned)

theorem adopt (old : ∀ r ∈ roots, ∀ xs f, follow decode mem' level r xs = some f →
      follow decode mem level r xs = some f)
    (fresh : ∀ r ∈ roots, ∀ xs, follow decode mem level r xs ≠ some n)
    (copied : ∀ j ys f, follow decode mem' level n (j :: ys) = some f →
      ¬ own (j :: ys) ∧ ∃ s ∈ roots, follow decode mem level s (j :: ys) = some f) :
    Separated decode mem' level (insert n roots) own := by
  -- a table below the new root is the root itself or a table of an old one
  have below : ∀ {xs h}, follow decode mem' level n xs = some h →
      (xs = [] ∧ h = n) ∨
        ¬ own xs ∧ ∃ s ∈ roots, follow decode mem level s xs = some h := by
    intro xs h path
    cases xs with
    | nil =>
      cases path
      exact .inl ⟨rfl, rfl⟩
    | cons j ys => exact .inr (copied j ys h path)
  have place : ∀ {r xs h}, r ∈ insert n roots → follow decode mem' level r xs = some h →
      (r = n ∧ xs = [] ∧ h = n) ∨
        ∃ s ∈ roots, follow decode mem level s xs = some h ∧ (own xs → r = s) := by
    intro r xs h member path
    rcases member with rfl | member
    · rcases below path with ⟨rfl, rfl⟩ | ⟨shared, s, inside, source⟩
      · exact .inl ⟨rfl, rfl, rfl⟩
      · exact .inr ⟨s, inside, source, fun owned => absurd owned shared⟩
    · exact .inr ⟨r, member, old r member xs h path, fun _ => rfl⟩
  refine ⟨fun member member' first second => ?_, fun member member' first second owned => ?_⟩
  · rcases place member first with ⟨rfl, rfl, rfl⟩ | ⟨s, inside, source, -⟩
    · rcases place member' second with ⟨-, rfl, -⟩ | ⟨s', inside', source', -⟩
      · rfl
      · exact absurd source' (fresh s' inside' _)
    · rcases place member' second with ⟨-, -, rfl⟩ | ⟨s', inside', source', -⟩
      · exact absurd source (fresh s inside _)
      · exact sep.path inside inside' source source'
  · rcases place member first with ⟨rfl, rfl, rfl⟩ | ⟨s, inside, source, root⟩
    · rcases place member' second with ⟨rfl, -, -⟩ | ⟨s', inside', source', -⟩
      · rfl
      · exact absurd source' (fresh s' inside' _)
    · rcases place member' second with ⟨-, -, rfl⟩ | ⟨s', inside', source', root'⟩
      · exact absurd source (fresh s inside _)
      · rw [root owned, root' owned]
        exact sep.root inside inside' source source' owned

end Separated

end Walks

end Library
