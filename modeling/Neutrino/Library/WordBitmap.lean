import Mathlib.Data.Int.Order.Basic
import Mathlib.Data.Nat.Bitwise
import Mathlib.Logic.Function.Basic

namespace Library

/-- A bitmap kept in machine words; words at negative positions are the memory in front of it. -/
abbrev WordBitmap (w : Nat) := Int → BitVec w

namespace WordBitmap

variable {w : Nat}

def test (m : WordBitmap w) (bit : Nat) : Bool :=
  (m ((bit / w : Nat) : Int)).getLsbD (bit % w)

def setAt (m : WordBitmap w) (word : Int) (position : Nat) : WordBitmap w :=
  Function.update m word (m word ||| BitVec.ofNat w 1 <<< position)

def clearAt (m : WordBitmap w) (word : Int) (position : Nat) : WordBitmap w :=
  Function.update m word (m word &&& ~~~(BitVec.ofNat w 1 <<< position))

theorem getLsbD_one_shift (position i : Nat) (inside : i < w) :
    (BitVec.ofNat w 1 <<< position).getLsbD i = decide (i = position) := by
  rw [BitVec.getLsbD_shiftLeft, BitVec.getLsbD_ofNat, Bool.eq_iff_iff]
  simp only [Bool.and_eq_true, Bool.not_eq_true', decide_eq_true_eq, decide_eq_false_iff_not,
    Nat.testBit_one_eq_true_iff_self_eq_zero]
  omega

theorem getLsbD_setAt (m : WordBitmap w) (word other : Int) (position i : Nat) (inside : i < w) :
    (m.setAt word position other).getLsbD i =
      ((m other).getLsbD i || decide (other = word ∧ i = position)) := by
  by_cases same : other = word
  · subst same
    rw [setAt, Function.update_self, BitVec.getLsbD_or, getLsbD_one_shift _ _ inside]
    simp
  · simp [setAt, same]

theorem getLsbD_clearAt (m : WordBitmap w) (word other : Int) (position i : Nat) (inside : i < w) :
    (m.clearAt word position other).getLsbD i =
      ((m other).getLsbD i && !decide (other = word ∧ i = position)) := by
  by_cases same : other = word
  · subst same
    rw [clearAt, Function.update_self, BitVec.getLsbD_and, BitVec.getLsbD_not,
      getLsbD_one_shift _ _ inside]
    simp [inside]
  · simp [clearAt, same]

theorem test_setAt (m : WordBitmap w) (word : Int) (position bit : Nat) (positive : 0 < w) :
    (m.setAt word position).test bit =
      (m.test bit || decide (((bit / w : Nat) : Int) = word ∧ bit % w = position)) :=
  getLsbD_setAt m word _ position _ (Nat.mod_lt _ positive)

theorem test_clearAt (m : WordBitmap w) (word : Int) (position bit : Nat) (positive : 0 < w) :
    (m.clearAt word position).test bit =
      (m.test bit && !decide (((bit / w : Nat) : Int) = word ∧ bit % w = position)) :=
  getLsbD_clearAt m word _ position _ (Nat.mod_lt _ positive)

def setAll (m : WordBitmap w) : List (Int × Nat) → WordBitmap w
  | [] => m
  | (word, position) :: places => (m.setAt word position).setAll places

def clearAll (m : WordBitmap w) : List (Int × Nat) → WordBitmap w
  | [] => m
  | (word, position) :: places => (m.clearAt word position).clearAll places

theorem getLsbD_setAll (m : WordBitmap w) (places : List (Int × Nat)) (word : Int) (i : Nat)
    (inside : i < w) :
    (m.setAll places word).getLsbD i = ((m word).getLsbD i || decide ((word, i) ∈ places)) := by
  induction places generalizing m with
  | nil => simp [setAll]
  | cons place places ih =>
    rw [setAll, ih, getLsbD_setAt _ _ _ _ _ inside, Bool.or_assoc]
    simp [Prod.ext_iff]

theorem getLsbD_clearAll (m : WordBitmap w) (places : List (Int × Nat)) (word : Int) (i : Nat)
    (inside : i < w) :
    (m.clearAll places word).getLsbD i = ((m word).getLsbD i && !decide ((word, i) ∈ places)) := by
  induction places generalizing m with
  | nil => simp [clearAll]
  | cons place places ih =>
    rw [clearAll, ih, getLsbD_clearAt _ _ _ _ _ inside, Bool.and_assoc]
    simp [Prod.ext_iff]

theorem clearAll_setAll_iff (m : WordBitmap w) (places : List (Int × Nat))
    (inside : ∀ place ∈ places, place.2 < w) :
    (m.setAll places).clearAll places = m ↔ ∀ place ∈ places, (m place.1).getLsbD place.2 = false := by
  constructor
  · intro restored place member
    have bit := congrArg (fun m : WordBitmap w => (m place.1).getLsbD place.2) restored
    simp only [getLsbD_clearAll _ _ _ _ (inside place member), member, decide_true, Bool.not_true,
      Bool.and_false] at bit
    exact bit.symm
  · intro clear
    funext word
    apply BitVec.eq_of_getLsbD_eq
    intro i below
    rw [getLsbD_clearAll _ _ _ _ below, getLsbD_setAll _ _ _ _ below]
    by_cases member : (word, i) ∈ places
    · simp [clear _ member]
    · simp [member]

end WordBitmap

end Library
