import Neutrino.Physical.Search

namespace Neutrino.Physical

open Library

/-- What so many rounds of `pmm_map_first_free` and `pmm_map_set` return, up to the first that finds
    nothing. -/
def firstFrees : (rounds : Nat) → Pmm → List Int
  | 0, _ => []
  | rounds + 1, p =>
    let block := pmmMapFirstFree p
    if block = blockPositionInvalid then [] else block :: firstFrees rounds (pmmMapSet p (toInt32 block))

def clearBlocks (p : Pmm) : List Nat := (List.range p.scanned).filter (clearBlock p)

theorem scanned_pmmMapSet (p : Pmm) (bit : Int) : (pmmMapSet p bit).scanned = p.scanned := rfl

theorem scanned_small {p : Pmm} {b : Nat} (small : p.totalBlocks.toNat < 2 ^ 31) (inside : b < p.scanned) :
    toInt32 (b : Int) = b := by
  apply toInt32_of_small
  rw [Pmm.scanned] at inside
  omega

theorem clearBlock_pmmMapSet (p : Pmm) (b c : Nat) :
    clearBlock (pmmMapSet p b) c = (clearBlock p c && !decide (c = b)) := by
  rw [clearBlock, clearBlock, used_pmmMapSet, Bool.not_or]

theorem clearBlocks_first {p : Pmm} {b : Nat} (first : FirstHit (clearBlock p) 0 p.scanned b) :
    clearBlocks p = b :: clearBlocks (pmmMapSet p b) := by
  have rest : clearBlock (pmmMapSet p b) = fun c => clearBlock p c && !decide (c = b) :=
    funext (clearBlock_pmmMapSet p b)
  rw [clearBlocks, first.filter_range, clearBlocks, scanned_pmmMapSet, rest]

theorem clearBlocks_nil {p : Pmm} (full : ∀ b, b < p.scanned → p.used b = true) : clearBlocks p = [] := by
  apply List.filter_eq_nil_iff.mpr
  intro b member
  simp [clearBlock, full b (List.mem_range.mp member)]

theorem firstFrees_eq {p : Pmm} (small : p.totalBlocks.toNat < 2 ^ 31) (rounds : Nat) :
    firstFrees rounds p = ((clearBlocks p).take rounds).map fun b : Nat => (b : Int) := by
  induction rounds generalizing p with
  | zero => rfl
  | succ rounds ih =>
    rw [firstFrees]
    rcases first_free_cases p with invalid | ⟨b, found, first⟩
    · have none := clearBlocks_nil ((first_free_invalid_iff p).mp invalid)
      have failed : pmmMapFirstFree p = blockPositionInvalid := invalid
      rw [if_pos failed, none]
      rfl
    · have valid : ¬ (b : Int) = blockPositionInvalid := by
        rw [blockPositionInvalid]
        omega
      rw [found, if_neg valid, scanned_small small first.2.1, @ih (pmmMapSet p b) small, clearBlocks_first first]
      rfl

/-- One bit of the words at `_map` is set, and nothing else of the allocator's state changes. -/
def SetsOnly (p p' : Pmm) (b : Nat) : Prop :=
  { p' with words := p.words } = p ∧ ∀ word i, i < 32 →
    (p'.words word).getLsbD i = ((p.words word).getLsbD i || decide (word = ((b / 32 : Nat) : Int) ∧ i = b % 32))

theorem pmmMapSet_setsOnly (p : Pmm) (b : Nat) : SetsOnly p (pmmMapSet p b) b := by
  refine ⟨rfl, ?_⟩
  intro word i inside
  have bit := WordBitmap.getLsbD_setAt p.words (wordIndex b) word (bitPosition b) i inside
  rw [wordIndex_natCast, bitPosition_natCast] at bit
  rw [← bit, pmmMapSet, wordIndex_natCast, bitPosition_natCast]

theorem first_free_exact (p : Pmm) (small : p.totalBlocks.toNat < 2 ^ 31) :
    (∀ b : Nat, pmmMapFirstFree p = b ↔
      b < 32 * (p.totalBlocks.toNat / 32) ∧ p.used b = false ∧ ∀ c, c < b → p.used c = true) ∧
    (pmmMapFirstFree p = blockPositionInvalid ↔ ∀ b, b < 32 * (p.totalBlocks.toNat / 32) → p.used b = true) ∧
    (∀ b : Nat, pmmMapFirstFree p = b → SetsOnly p (pmmMapSet p (toInt32 (pmmMapFirstFree p))) b) ∧
    ∀ rounds, firstFrees rounds p =
      (((List.range (32 * (p.totalBlocks.toNat / 32))).filter fun b => !p.used b).take rounds).map fun b : Nat => (b : Int) := by
  have scanned : 32 * (p.totalBlocks.toNat / 32) = p.scanned := Nat.mul_comm ..
  rw [scanned]
  refine ⟨?_, first_free_invalid_iff p, ?_, firstFrees_eq small⟩
  · intro b
    rw [first_free_iff]
    simp [FirstHit, clearBlock]
  · intro b found
    rw [found, scanned_small small ((first_free_iff p b).mp found).2.1]
    exact pmmMapSet_setsOnly p b

/-- Two words, of which the bits 31 and 33 are clear. -/
def twoClear : Pmm where
  totalMemory := 0
  usableMemory := 0
  totalBlocks := 70
  usableBlocks := 0
  usedBlocks := 0
  regions := []
  map := 0
  mapSize := 0
  words := fun word => if word = 0 then 0x7fffffff else if word = 1 then 0xfffffffd else 0

theorem first_free_exact_two : twoClear.totalBlocks.toNat < 2 ^ 31 ∧ firstFrees 3 twoClear = [31, 33] := by
  have small : twoClear.totalBlocks.toNat < 2 ^ 31 := by decide
  refine ⟨small, ?_⟩
  rw [(first_free_exact twoClear small).2.2.2]
  decide

end Neutrino.Physical
