import Mathlib.Algebra.Order.BigOperators.Group.List
import Mathlib.Algebra.Order.Group.Nat
import Mathlib.Algebra.Ring.Nat

namespace Library.FirstFit

variable {B : Type*} (start stop : B → Nat)

/-- Blocks in the order of their places, between `lo` and `hi`. -/
def Ordered : (lo hi : Nat) → List B → Prop
  | lo, hi, [] => lo ≤ hi
  | lo, hi, b :: rest => lo ≤ start b ∧ start b ≤ stop b ∧ Ordered (stop b) hi rest

/-- A new block goes to the beginning of the first gap that is large enough. -/
def place (need : Nat) (make : Nat → B) : (lo hi : Nat) → List B → Option (List B)
  | lo, hi, [] => if lo + need ≤ hi then some [make lo] else none
  | lo, hi, b :: rest =>
    if lo + need ≤ start b then some (make lo :: b :: rest) else (place need make (stop b) hi rest).map (b :: ·)

def extent (blocks : List B) : Nat := (blocks.map fun b => stop b - start b).sum

variable {start stop} {lo hi need : Nat} {make : Nat → B} {xs ys blocks blocks' : List B} {b c : B}

section

variable (ordered : Ordered start stop lo hi blocks)
include ordered

theorem Ordered.le : lo ≤ hi := by
  induction blocks generalizing lo with
  | nil => exact ordered
  | cons b rest ih =>
    have rest := ih ordered.2.2
    have := ordered.1
    have := ordered.2.1
    omega

theorem Ordered.extent_le : lo + extent start stop blocks ≤ hi := by
  induction blocks generalizing lo with
  | nil => exact ordered
  | cons b rest ih =>
    have rest := ih ordered.2.2
    have := ordered.1
    have := ordered.2.1
    simp only [extent, List.map_cons, List.sum_cons] at rest ⊢
    omega

theorem Ordered.mono {lo' hi' : Nat} (less : lo' ≤ lo) (more : hi ≤ hi') : Ordered start stop lo' hi' blocks := by
  induction blocks generalizing lo lo' with
  | nil => exact Nat.le_trans less (Nat.le_trans ordered more)
  | cons b rest ih => exact ⟨Nat.le_trans less ordered.1, ordered.2.1, ih ordered.2.2 (Nat.le_refl _)⟩

theorem Ordered.within (member : b ∈ blocks) : lo ≤ start b ∧ start b ≤ stop b ∧ stop b ≤ hi := by
  induction blocks generalizing lo with
  | nil => cases member
  | cons c rest ih =>
    rcases List.mem_cons.mp member with rfl | member
    · exact ⟨ordered.1, ordered.2.1, ordered.2.2.le⟩
    · have inside := ih ordered.2.2 member
      have := ordered.1
      have := ordered.2.1
      omega

end

theorem Ordered.append : Ordered start stop lo hi (xs ++ b :: ys) ↔
    Ordered start stop lo (start b) xs ∧ start b ≤ stop b ∧ Ordered start stop (stop b) hi ys := by
  induction xs generalizing lo with
  | nil => exact Iff.rfl
  | cons c xs ih =>
    rw [List.cons_append]
    simp only [Ordered]
    rw [ih]
    constructor
    · intro both
      exact ⟨⟨both.1, both.2.1, both.2.2.1⟩, both.2.2.2⟩
    · intro both
      exact ⟨both.1.1, both.1.2.1, both.1.2.2, both.2⟩

theorem Ordered.pairwise (ordered : Ordered start stop lo hi blocks) :
    blocks.Pairwise fun b c => stop b ≤ start c := by
  induction blocks generalizing lo with
  | nil => exact .nil
  | cons b rest ih =>
    apply List.pairwise_cons.mpr
    constructor
    · intro c member
      exact (ordered.2.2.within member).1
    · exact ih ordered.2.2

theorem Ordered.remove (ordered : Ordered start stop lo hi (xs ++ b :: ys)) : Ordered start stop lo hi (xs ++ ys) := by
  obtain ⟨left, block, right⟩ := Ordered.append.mp ordered
  clear ordered
  induction xs generalizing lo with
  | nil => exact right.mono (Nat.le_trans left block) (Nat.le_refl _)
  | cons c xs ih => exact ⟨left.1, left.2.1, ih left.2.2⟩

theorem Ordered.place (ordered : Ordered start stop lo hi blocks)
    (made : ∀ at', start (make at') = at' ∧ stop (make at') = at' + need)
    (placed : place start stop need make lo hi blocks = some blocks') : Ordered start stop lo hi blocks' := by
  induction blocks generalizing lo blocks' with
  | nil =>
    rw [FirstFit.place] at placed
    split at placed
    case isTrue fits =>
      cases placed
      simp only [Ordered, made]
      omega
    case isFalse => cases placed
  | cons b rest ih =>
    rw [FirstFit.place] at placed
    split at placed
    case isTrue fits =>
      cases placed
      simp only [Ordered, made]
      exact ⟨Nat.le_refl _, Nat.le_add_right _ _, fits, ordered.2⟩
    case isFalse =>
      obtain ⟨blocks, found, rfl⟩ := Option.map_eq_some_iff.mp placed
      exact ⟨ordered.1, ordered.2.1, ih ordered.2.2 found⟩

theorem place_none (ordered : Ordered start stop lo hi blocks) (short : hi < lo + extent start stop blocks + need) :
    place start stop need make lo hi blocks = none := by
  induction blocks generalizing lo with
  | nil =>
    rw [place, if_neg]
    simp only [extent, List.map_nil, List.sum_nil] at short
    omega
  | cons b rest ih =>
    have := ordered.1
    have := ordered.2.1
    have later := ordered.2.2.extent_le
    simp only [extent, List.map_cons, List.sum_cons] at short later
    have tail := ih ordered.2.2 (by unfold extent; omega)
    rw [place, if_neg (by omega), tail, Option.map_none]

theorem place_none_meets (none : place start stop need make lo hi blocks = none) {at' : Nat} (low : lo ≤ at')
    (high : at' + need ≤ hi) : ∃ b ∈ blocks, start b < at' + need ∧ at' < stop b := by
  induction blocks generalizing lo with
  | nil =>
    have fits : lo + need ≤ hi := by omega
    rw [place, if_pos fits] at none
    cases none
  | cons b rest ih =>
    rw [place] at none
    split at none
    case isTrue => cases none
    case isFalse short =>
      by_cases within : at' < stop b
      · exact ⟨b, List.mem_cons_self, by omega, within⟩
      · obtain ⟨c, member, meets⟩ := ih (Option.map_eq_none_iff.mp none) (by omega)
        exact ⟨c, List.mem_cons_of_mem b member, meets⟩

end Library.FirstFit
