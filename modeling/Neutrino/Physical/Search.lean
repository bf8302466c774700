import Neutrino.Library.WordScan
import Neutrino.Physical.Model

namespace Neutrino.Physical

open Library

/-- The bitmap bit of a block. -/
def Pmm.used (p : Pmm) (block : Nat) : Bool := p.words.test block

/-- The blocks both searches scan: `0 .. 32*(total_blocks/32) - 1`. -/
def Pmm.scanned (p : Pmm) : Nat := p.totalBlocks.toNat / 32 * 32

theorem wordIndex_natCast (n : Nat) : wordIndex n = ((n / 32 : Nat) : Int) := by
  simp [wordIndex, Int.tdiv_eq_ediv_of_nonneg]

theorem bitPosition_natCast (n : Nat) : bitPosition n = n % 32 := by
  simp only [bitPosition, Int.tmod_eq_emod_of_nonneg (Int.natCast_nonneg n)]
  omega

theorem used_pmmMapSet (p : Pmm) (b c : Nat) :
    (pmmMapSet p b).used c = (p.used c || decide (c = b)) := by
  have same : (((c / 32 : Nat) : Int) = wordIndex b ∧ c % 32 = bitPosition b) ↔ c = b := by
    rw [wordIndex_natCast, bitPosition_natCast]
    omega
  simp only [Pmm.used, pmmMapSet, WordBitmap.test_setAt _ _ _ _ (show 0 < 32 by decide), same]

theorem used_pmmMapUnset (p : Pmm) (b c : Nat) :
    (pmmMapUnset p b).used c = (p.used c && !decide (c = b)) := by
  have same : (((c / 32 : Nat) : Int) = wordIndex b ∧ c % 32 = bitPosition b) ↔ c = b := by
    rw [wordIndex_natCast, bitPosition_natCast]
    omega
  simp only [Pmm.used, pmmMapUnset, WordBitmap.test_clearAt _ _ _ _ (show 0 < 32 by decide), same]

@[simp]
theorem used_pmmUpdateBlocks (p : Pmm) (increment : W32) (b : Nat) :
    (pmmUpdateBlocks p increment).used b = p.used b := rfl

theorem masked_eq_zero_iff (word : W32) (j : Nat) (inside : j < 32) :
    word &&& (1#32 <<< j) = 0#32 ↔ word.getLsbD j = false := by
  constructor
  · intro zero
    have bit := congrArg (fun x : W32 => x.getLsbD j) zero
    simpa only [BitVec.getLsbD_and, WordBitmap.getLsbD_one_shift j j inside, decide_true,
      Bool.and_true, BitVec.getLsbD_zero] using bit
  · intro clear
    apply BitVec.eq_of_getLsbD_eq
    intro i below
    rw [BitVec.getLsbD_and, WordBitmap.getLsbD_one_shift j i below, BitVec.getLsbD_zero]
    by_cases same : i = j
    · subst same
      simp [clear]
    · simp [same]

/-- `pmm_map_get` tells a used block only if its bit is one of the low eight of its word. -/
def Pmm.seen (p : Pmm) (b : Nat) : Bool := p.used b && decide (b % 32 < 8)

theorem pmmMapGet_eq_zero_iff (p : Pmm) (b : Nat) : pmmMapGet p b = 0#8 ↔ p.seen b = false := by
  have inside : b % 32 < 32 := Nat.mod_lt b (by decide)
  have bit (i : Nat) (low : i < 8) : (pmmMapGet p b).getLsbD i = (p.used b && decide (i = b % 32)) := by
    rw [pmmMapGet, wordIndex_natCast, bitPosition_natCast, BitVec.getLsbD_setWidth, BitVec.getLsbD_and,
      WordBitmap.getLsbD_one_shift _ i (by omega), Pmm.used, WordBitmap.test]
    by_cases same : i = b % 32
    · subst same
      simp [low]
    · simp [same]
  constructor
  · intro zero
    by_cases low : b % 32 < 8
    · have clear := bit (b % 32) low
      rw [zero, BitVec.getLsbD_zero] at clear
      simpa [Pmm.seen] using fun used => absurd clear (by simp [used])
    · simp [Pmm.seen, low]
  · intro unseen
    apply BitVec.eq_of_getLsbD_eq
    intro i low
    rw [bit i low, BitVec.getLsbD_zero]
    by_cases same : i = b % 32
    · simpa [Pmm.seen, same, show b % 32 < 8 by omega] using unseen
    · simp [same]

theorem used_word (p : Pmm) (i j : Nat) (inside : j < 32) :
    p.used (i * 32 + j) = (p.words (i : Int)).getLsbD j := by
  have word : (i * 32 + j) / 32 = i := by omega
  have position : (i * 32 + j) % 32 = j := by omega
  simp only [Pmm.used, WordBitmap.test, word, position]

theorem full_word_used (p : Pmm) (i j : Nat) (inside : j < 32)
    (full : p.words (i : Int) = 0xffffffff#32) : p.used (i * 32 + j) = true := by
  rw [used_word p i j inside, full, show 0xffffffff#32 = BitVec.allOnes 32 from rfl,
    BitVec.getLsbD_allOnes]
  simpa using inside

def wordFull (p : Pmm) (i : Nat) : Bool := decide (p.words (i : Int) = 0xffffffff#32)

theorem search_eq_scan (p : Pmm) (fromBlock : Nat) (probe : Nat → Bool) :
    ((scanWords p fromBlock).findSome? fun (i : Nat) =>
      if p.words i ≠ 0xffffffff#32 then
        (List.range 32).findSome? fun (j : Nat) =>
          if p.words i &&& (1#32 <<< j) = 0#32 ∧ probe (i * 32 + j) = true
          then some ((i * 4 * 8 + j : Nat) : Int) else none
      else none) =
    (scan 32 (wordFull p) (fun b => !p.used b && probe b) (scanWords p fromBlock)).map
      (fun b : Nat => (b : Int)) := by
  rw [scan, List.map_findSome?]
  congr 1
  funext i
  by_cases full : p.words (i : Int) = 0xffffffff#32
  · simp [full, wordFull]
  · simp only [ne_eq, full, not_false_eq_true, ↓reduceIte, wordFull, decide_false,
      Bool.false_eq_true, Function.comp_apply, List.map_findSome?]
    apply findSome?_eq_of_mem
    intro j member
    have inside := List.mem_range.mp member
    simp only [Function.comp_apply, used_word p i j inside, masked_eq_zero_iff _ j inside]
    cases clear : (p.words (i : Int)).getLsbD j <;> cases probe (i * 32 + j) <;>
      simp [Nat.mul_assoc]

def clearBlock (p : Pmm) (b : Nat) : Bool := !p.used b

/-- The test the code makes at a clear bit before it reports a series of `size` blocks. -/
def seriesFits (p : Pmm) (size b : Nat) : Bool :=
  !p.used b && seriesProbe p size (b % 2 ^ 32) (size + 1) 0 0

theorem firstFreeStartingFrom_eq_scan (p : Pmm) (fromBlock : Nat) :
    pmmMapFirstFreeStartingFrom p fromBlock =
      ((scan 32 (wordFull p) (clearBlock p) (scanWords p fromBlock)).map
        (fun b : Nat => (b : Int))).getD (-1) := by
  have same := search_eq_scan p fromBlock fun _ => true
  simp only [and_true, Bool.and_true] at same
  rw [pmmMapFirstFreeStartingFrom, same]
  rfl

theorem firstFreeSeriesStartingFrom_eq_scan (p : Pmm) (size fromBlock : Nat) :
    pmmMapFirstFreeSeriesStartingFrom p size fromBlock =
      ((scan 32 (wordFull p) (seriesFits p size) (scanWords p fromBlock)).map
        (fun b : Nat => (b : Int))).getD (-1) := by
  rw [pmmMapFirstFreeSeriesStartingFrom,
    search_eq_scan p fromBlock fun b => seriesProbe p size (b % 2 ^ 32) (size + 1) 0 0]
  rfl

theorem clear_skips_full (p : Pmm) :
    ∀ i, wordFull p i = true → ∀ j, j < 32 → clearBlock p (i * 32 + j) = false := by
  intro i full j inside
  simp only [clearBlock, full_word_used p i j inside (of_decide_eq_true full), Bool.not_true]

theorem scan_result_iff (found : Option Nat) (b : Nat) :
    (found.map (fun b : Nat => (b : Int))).getD (-1) = (b : Int) ↔ found = some b := by
  cases found with
  | none => simp
  | some c =>
    show (c : Int) = b ↔ some c = some b
    rw [Int.natCast_inj, Option.some_inj]

theorem scan_result_invalid (found : Option Nat) :
    (found.map (fun b : Nat => (b : Int))).getD (-1) = -1 ↔ found = none := by
  cases found with
  | none => simp
  | some c => simp

theorem first_free_from_start (p : Pmm) :
    pmmMapFirstFree p = pmmMapFirstFreeStartingFrom p 0 := by
  simp only [pmmMapFirstFree, blockPositionInvalid]
  split <;> simp_all

theorem first_free_iff (p : Pmm) (b : Nat) :
    pmmMapFirstFree p = b ↔ FirstHit (clearBlock p) 0 p.scanned b := by
  rw [first_free_from_start, firstFreeStartingFrom_eq_scan, scan_result_iff, scanWords, scan_eq_some_iff b (clear_skips_full p),
    Nat.zero_mul]
  rfl

theorem first_free_invalid_iff (p : Pmm) :
    pmmMapFirstFree p = -1 ↔ ∀ b, b < p.scanned → p.used b = true := by
  rw [first_free_from_start, firstFreeStartingFrom_eq_scan, scan_result_invalid, scanWords, scan_eq_none_iff (clear_skips_full p)]
  simp [clearBlock, Pmm.scanned]

theorem first_free_cases (p : Pmm) :
    pmmMapFirstFree p = -1 ∨ ∃ b : Nat, pmmMapFirstFree p = b ∧
      FirstHit (clearBlock p) 0 p.scanned b := by
  cases found : scan 32 (wordFull p) (clearBlock p) (scanWords p 0) with
  | none => exact .inl (by rw [first_free_from_start, firstFreeStartingFrom_eq_scan, found]; rfl)
  | some b =>
    have position : pmmMapFirstFree p = b := by
      rw [first_free_from_start, firstFreeStartingFrom_eq_scan, found]
      rfl
    exact .inr ⟨b, position, (first_free_iff p b).mp position⟩

end Neutrino.Physical
