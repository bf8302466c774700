import Mathlib.Algebra.BigOperators.Group.List.Basic
import Mathlib.Algebra.Order.BigOperators.Group.List
import Mathlib.Algebra.Ring.Nat
import Mathlib.Data.Finset.Card
import Mathlib.Order.Interval.Finset.Nat

namespace Library

/-- Bytes in a row. -/
structure Range where
  start : Nat
  size : Nat

namespace Range

def Disjoint (r s : Range) : Prop := r.start + r.size ≤ s.start ∨ s.start + s.size ≤ r.start

def Within (r whole : Range) : Prop := whole.start ≤ r.start ∧ r.start + r.size ≤ whole.start + whole.size

theorem Disjoint.start_ne {r s : Range} (apart : Disjoint r s) (used : 0 < r.size) (used' : 0 < s.size) :
    r.start ≠ s.start := by
  unfold Disjoint at apart
  omega

def cover (ranges : List Range) : Finset Nat :=
  ranges.foldr (fun r rest => Finset.Ico r.start (r.start + r.size) ∪ rest) ∅

theorem mem_cover {ranges : List Range} {a : Nat} :
    a ∈ cover ranges ↔ ∃ r ∈ ranges, r.start ≤ a ∧ a < r.start + r.size := by
  induction ranges with
  | nil => simp [cover]
  | cons r ranges ih =>
    simp only [cover, List.foldr_cons, Finset.mem_union, Finset.mem_Ico, List.mem_cons, exists_eq_or_imp]
    exact or_congr_right ih

theorem card_cover {ranges : List Range} (apart : ranges.Pairwise Disjoint) :
    (cover ranges).card = (ranges.map size).sum := by
  induction ranges with
  | nil => rfl
  | cons r ranges ih =>
    rcases List.pairwise_cons.mp apart with ⟨first, rest⟩
    rw [List.map_cons, List.sum_cons, ← ih rest, cover, List.foldr_cons, Finset.card_union_of_disjoint,
      Nat.card_Ico, Nat.add_sub_cancel_left]
    · rfl
    · rw [Finset.disjoint_left]
      intro a inside other
      rcases mem_cover.mp other with ⟨s, member, lower, upper⟩
      rw [Finset.mem_Ico] at inside
      have := first s member
      unfold Disjoint at this
      omega

theorem sum_size_le {ranges : List Range} {whole : Range} (apart : ranges.Pairwise Disjoint)
    (within : ∀ r ∈ ranges, Within r whole) : (ranges.map size).sum ≤ whole.size := by
  rw [← card_cover apart]
  have subset : cover ranges ⊆ Finset.Ico whole.start (whole.start + whole.size) := by
    intro a member
    rcases mem_cover.mp member with ⟨r, inside, lower, upper⟩
    rcases within r inside with ⟨lower', upper'⟩
    rw [Finset.mem_Ico]
    omega
  calc (cover ranges).card ≤ (Finset.Ico whole.start (whole.start + whole.size)).card := Finset.card_le_card subset
    _ = whole.size := by rw [Nat.card_Ico, Nat.add_sub_cancel_left]

end Range

end Library
