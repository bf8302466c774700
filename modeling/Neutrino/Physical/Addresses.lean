import Neutrino.Physical.Allocation

namespace Neutrino.Physical

open Library

/-- The block that an allocation of `size` blocks is given, if any. -/
def Picks (p : Pmm) (size : W32) (b : Nat) : Prop :=
  if size = 1 then FirstHit (clearBlock p) 0 p.scanned b else FirstFit p size.toNat b

section Search

variable {p : Pmm} {size : W32} {b : Nat}

theorem FirstFit.found {n : Nat} (several : 1 < n) (fit : FirstFit p n b) :
    pmmMapFirstFreeSeries p n = b := by
  have positive : 0 < n := by omega
  simp only [pmmMapFirstFreeSeries, blockPositionInvalid, if_neg (show n ≠ 0 by omega),
    if_neg (show n ≠ 1 by omega)]
  rcases fit with first | ⟨absent, first⟩
  · rw [(series_from_iff p n _ b positive).mpr first]
    simp
  · rw [(series_from_invalid p n _ positive).mpr absent]
    rw [← Nat.zero_mul 32] at first
    rw [(series_from_iff p n 0 b positive).mpr first]
    simp

theorem series_picks_iff (nonzero : size ≠ 0) :
    pmmMapFirstFreeSeries p size.toNat = b ↔ Picks p size b := by
  by_cases single : size = 1
  · subst single
    simp only [Picks, ↓reduceIte]
    exact first_free_iff p b
  · have several := several_of_ne nonzero single
    simp only [Picks, if_neg single]
    constructor
    · intro found
      rcases first_free_series_cases p size.toNat several with invalid | ⟨c, found', fit⟩
      · rw [invalid] at found
        exact absurd found (by omega)
      · have same : c = b := by
          rw [found'] at found
          exact Int.natCast_inj.mp found
        rwa [same] at fit
    · exact FirstFit.found several

theorem Picks.inside (picks : Picks p size b) : b < p.scanned := by
  unfold Picks at picks
  split at picks
  · exact picks.2.1
  · exact picks.clear.1

theorem invalid_block_iff (b : Nat) : BitVec.ofNat 32 b = 0xffffffff#32 ↔ b % 2 ^ 32 = 2 ^ 32 - 1 := by
  constructor
  · intro same
    have value := congrArg BitVec.toNat same
    simpa using value
  · intro last
    apply BitVec.eq_of_toNat_eq
    simpa using last

theorem pmmAlloc_picked (first : FirstHit (clearBlock p) 0 p.scanned b) :
    pmmAlloc p = if p.usableBlocks ≤ p.usedBlocks ∨ b % 2 ^ 32 = 2 ^ 32 - 1 then none
      else some ((BitVec.ofNat 32 b * 0x1000#32).setWidth 64,
        pmmUpdateBlocks (pmmMapSet p (toInt32 (BitVec.ofNat 32 b).toNat)) 1#32) := by
  have found := (first_free_iff p b).mpr first
  simp only [pmmAlloc, found, ofInt_natCast, invalid_block_iff]
  by_cases full : p.usableBlocks ≤ p.usedBlocks
  · simp [full]
  · simp [full]

theorem pmmAllocSeries_picked (nonzero : size ≠ 0) (picks : Picks p size b) :
    pmmAllocSeries p size =
      if p.usableBlocks ≤ p.usedBlocks + size.setWidth 64 ∨ b % 2 ^ 32 = 2 ^ 32 - 1 then none
      else some ((BitVec.ofNat 32 b * 0x1000#32).setWidth 64,
        pmmUpdateBlocks (setSeries (BitVec.ofNat 32 b) size.toNat 0 p) size) := by
  have found := (series_picks_iff nonzero).mpr picks
  simp only [pmmAllocSeries, found, ofInt_natCast, invalid_block_iff]
  by_cases full : p.usableBlocks ≤ p.usedBlocks + size.setWidth 64
  · simp [full]
  · simp [full]

end Search

/-- The bit that `pmm_map_set` and `pmm_map_unset` change. -/
def bitPlace (bit : Int) : Int × Nat := (wordIndex bit, bitPosition bit)

def Pmm.marked (p : Pmm) (bit : Int) : Bool :=
  (p.words (bitPlace bit).1).getLsbD (bitPlace bit).2

/-- The bits of `count` further iterations of the loops over `block + i`. -/
def seriesPlaces (block : W32) : (count : Nat) → W32 → List (Int × Nat)
  | 0, _ => []
  | count + 1, i => bitPlace (toInt32 (block + i).toNat) :: seriesPlaces block count (i + 1)

theorem bitPlace_inside (bit : Int) : (bitPlace bit).2 < 32 := by
  simp only [bitPlace, bitPosition]
  omega

theorem setSeries_words (block i : W32) (count : Nat) (p : Pmm) :
    (setSeries block count i p).words = p.words.setAll (seriesPlaces block count i) := by
  induction count generalizing i p with
  | zero => rfl
  | succ count ih => rw [setSeries, ih]; rfl

theorem unsetSeries_words (block i : W32) (count : Nat) (p : Pmm) :
    (unsetSeries block count i p).words = p.words.clearAll (seriesPlaces block count i) := by
  induction count generalizing i p with
  | zero => rfl
  | succ count ih => rw [unsetSeries, ih]; rfl

theorem mem_seriesPlaces (block i : W32) (count : Nat) (place : Int × Nat) :
    place ∈ seriesPlaces block count i ↔
      ∃ k < count, place = bitPlace (toInt32 (block + i + BitVec.ofNat 32 k).toNat) := by
  induction count generalizing i with
  | zero => simp [seriesPlaces]
  | succ count ih =>
    have shift : ∀ k, block + (i + 1) + BitVec.ofNat 32 k = block + i + BitVec.ofNat 32 (k + 1) := by
      intro k
      rw [BitVec.ofNat_add, ← BitVec.add_assoc, BitVec.add_assoc, BitVec.add_comm 1]
      rfl
    simp only [seriesPlaces, List.mem_cons, ih, shift]
    constructor
    · rintro (rfl | ⟨k, less, rfl⟩)
      · exact ⟨0, by omega, by simp⟩
      · exact ⟨k + 1, by omega, rfl⟩
    · rintro ⟨k, less, rfl⟩
      cases k with
      | zero => exact .inl (by simp)
      | succ k => exact .inr ⟨k, by omega, rfl⟩

theorem series_restored_iff (p : Pmm) (b : Nat) (size : W32) :
    (unsetSeries (BitVec.ofNat 32 b) size.toNat 0
        (pmmUpdateBlocks (setSeries (BitVec.ofNat 32 b) size.toNat 0 p) size)).words = p.words ↔
      ∀ i < size.toNat, p.marked (toInt32 ((b + i) % 2 ^ 32 : Nat)) = false := by
  have kept : (pmmUpdateBlocks (setSeries (BitVec.ofNat 32 b) size.toNat 0 p) size).words =
      p.words.setAll (seriesPlaces (BitVec.ofNat 32 b) size.toNat 0) := setSeries_words _ _ _ _
  have index : ∀ k, (BitVec.ofNat 32 b + 0 + BitVec.ofNat 32 k).toNat = (b + k) % 2 ^ 32 := by
    intro k
    simp
  rw [unsetSeries_words, kept, WordBitmap.clearAll_setAll_iff]
  · constructor
    · intro clear i less
      exact clear _ ((mem_seriesPlaces _ _ _ _).mpr ⟨i, less, by rw [index]⟩)
    · intro clear place member
      rcases (mem_seriesPlaces _ _ _ _).mp member with ⟨k, less, rfl⟩
      rw [index]
      exact clear k less
  · intro place member
    rcases (mem_seriesPlaces _ _ _ _).mp member with ⟨k, less, rfl⟩
    exact bitPlace_inside _

theorem marked_small (p : Pmm) {b : Nat} (small : b < 2 ^ 31) : p.marked (toInt32 b) = p.used b := by
  rw [toInt32_of_small b small]
  simp only [Pmm.marked, Pmm.used, bitPlace, WordBitmap.test, wordIndex_natCast, bitPosition_natCast]

theorem block_address_iff (b : Nat) :
    ((BitVec.ofNat 32 b * 0x1000#32).setWidth 64).toNat = b * 4096 ↔ b < 2 ^ 20 := by
  constructor
  · intro exact
    have bound := (BitVec.ofNat 32 b * 0x1000#32).isLt
    rw [BitVec.toNat_setWidth] at exact
    omega
  · exact block_address b

theorem address_small_block {b : Nat} (small : b < 2 ^ 20) :
    ((BitVec.ofNat 32 b * 0x1000#32).setWidth 64).setWidth 32 / 0x1000#32 = BitVec.ofNat 32 b := by
  apply BitVec.eq_of_toNat_eq
  rw [BitVec.toNat_udiv, BitVec.toNat_setWidth, block_address b small]
  simp only [BitVec.toNat_ofNat, Nat.reducePow, Nat.reduceMod]
  omega

/-- The states in which a single allocation keeps its address in 32 bits. -/
def AllocInReach (p : Pmm) : Prop :=
  p.usedBlocks < p.usableBlocks → ∀ b, FirstHit (clearBlock p) 0 p.scanned b →
    b % 2 ^ 32 ≠ 2 ^ 32 - 1 → b < 2 ^ 20

/-- The same for a series, which must also consist of clear blocks. -/
def SeriesInReach (p : Pmm) (size : W32) : Prop :=
  p.usedBlocks + size.setWidth 64 < p.usableBlocks → ∀ b, Picks p size b →
    b % 2 ^ 32 ≠ 2 ^ 32 - 1 →
      b < 2 ^ 20 ∧ ∀ i < size.toNat, p.marked (toInt32 ((b + i) % 2 ^ 32 : Nat)) = false

section RoundTrip

variable {p : Pmm} {size : W32} {b : Nat}

theorem pmmFree_pmmAlloc_words (small : b < 2 ^ 20) (clear : p.used b = false) :
    (pmmFree (pmmUpdateBlocks (pmmMapSet p (toInt32 (BitVec.ofNat 32 b).toNat)) 1#32)
      ((BitVec.ofNat 32 b * 0x1000#32).setWidth 64)).words = p.words := by
  have index : (BitVec.ofNat 32 b).toNat = b := by
    rw [BitVec.toNat_ofNat]
    omega
  have bits := (p.words.clearAll_setAll_iff [bitPlace (toInt32 b)]
    (fun place member => by rw [List.mem_singleton.mp member]; exact bitPlace_inside _)).mpr
    (fun place member => by
      rw [List.mem_singleton.mp member]
      exact (marked_small p (by omega)).trans clear)
  simp only [WordBitmap.setAll, WordBitmap.clearAll, bitPlace] at bits
  simp only [pmmFree, address_small_block small, index, pmmUpdateBlocks, pmmMapUnset, pmmMapSet, bits]

theorem pmmFreeSeries_pmmAllocSeries_words (small : b < 2 ^ 20) :
    (pmmFreeSeries (pmmUpdateBlocks (setSeries (BitVec.ofNat 32 b) size.toNat 0 p) size)
      ((BitVec.ofNat 32 b * 0x1000#32).setWidth 64) size).words = p.words ↔
      ∀ i < size.toNat, p.marked (toInt32 ((b + i) % 2 ^ 32 : Nat)) = false := by
  simp only [pmmFreeSeries, address_small_block small]
  exact series_restored_iff p b size

theorem alloc_in_reach_iff : (∀ (b : Nat) addr p', pmmMapFirstFree p = b → pmmAlloc p = some (addr, p') →
    addr.toNat = b * 4096 ∧ (pmmFree p' addr).words = p.words) ↔ AllocInReach p := by
  constructor
  · intro exact room b first valid
    have taken := pmmAlloc_picked first
    rw [if_neg (by simp only [not_or, BitVec.not_le]; exact ⟨room, valid⟩)] at taken
    exact (block_address_iff b).mp (exact b _ _ ((first_free_iff p b).mpr first) taken).1
  · intro reach b addr p' found taken
    have first := (first_free_iff p b).mp found
    rw [pmmAlloc_picked first] at taken
    split at taken
    · cases taken
    · rename_i valid
      cases taken
      rw [not_or, BitVec.not_le] at valid
      have small := reach valid.1 b first valid.2
      exact ⟨block_address b small, pmmFree_pmmAlloc_words small (FirstHit.clear_block first).1⟩

theorem series_in_reach_iff (nonzero : size ≠ 0) :
    (∀ (b : Nat) addr p', pmmMapFirstFreeSeries p size.toNat = b → pmmAllocSeries p size = some (addr, p') →
      addr.toNat = b * 4096 ∧ (pmmFreeSeries p' addr size).words = p.words) ↔ SeriesInReach p size := by
  constructor
  · intro exact room b picks valid
    have taken := pmmAllocSeries_picked nonzero picks
    rw [if_neg (by simp only [not_or, BitVec.not_le]; exact ⟨room, valid⟩)] at taken
    have both := exact b _ _ ((series_picks_iff nonzero).mpr picks) taken
    have small := (block_address_iff b).mp both.1
    exact ⟨small, (pmmFreeSeries_pmmAllocSeries_words small).mp both.2⟩
  · intro reach b addr p' found taken
    have picks := (series_picks_iff nonzero).mp found
    rw [pmmAllocSeries_picked nonzero picks] at taken
    split at taken
    · cases taken
    · rename_i valid
      cases taken
      rw [not_or, BitVec.not_le] at valid
      have both := reach valid.1 b picks valid.2
      exact ⟨block_address b both.1, (pmmFreeSeries_pmmAllocSeries_words both.1).mpr both.2⟩

end RoundTrip

theorem addresses_round_trip_iff (p : Pmm) :
    ((∀ (b : Nat) addr p', pmmMapFirstFree p = b → pmmAlloc p = some (addr, p') →
        addr.toNat = b * 4096 ∧ (pmmFree p' addr).words = p.words) ↔ AllocInReach p) ∧
    ∀ size : W32, size ≠ 0 →
      ((∀ (b : Nat) addr p', pmmMapFirstFreeSeries p size.toNat = b →
          pmmAllocSeries p size = some (addr, p') →
          addr.toNat = b * 4096 ∧ (pmmFreeSeries p' addr size).words = p.words) ↔ SeriesInReach p size) :=
  ⟨alloc_in_reach_iff, fun _ nonzero => series_in_reach_iff nonzero⟩

theorem two_regions_alloc_in_reach : AllocInReach (boot twoUsableRegions fun _ => 0).pmm := by
  intro _ b first _
  have scanned := two_regions_boot.1.1
  have below := first.2.1
  omega

theorem two_regions_series_in_reach : SeriesInReach (boot twoUsableRegions fun _ => 0).pmm 2 := by
  intro _ b picks _
  simp only [Picks, show (2 : W32) ≠ 1 by decide, ↓reduceIte] at picks
  have run := FirstFit.clearRun (by decide) two_regions_reliable picks
  refine ⟨run.small, fun i less => ?_⟩
  have two : (2 : W32).toNat = 2 := by decide
  have small := run.small
  rw [Nat.mod_eq_of_lt (by omega), marked_small _ (by omega)]
  exact run.clear i less

theorem addresses_round_trip_two_regions :
    (∃ addr p', pmmAlloc (boot twoUsableRegions fun _ => 0).pmm = some (addr, p') ∧
      (pmmFree p' addr).words = (boot twoUsableRegions fun _ => 0).pmm.words) ∧
    ∃ addr p', pmmAllocSeries (boot twoUsableRegions fun _ => 0).pmm 2 = some (addr, p') ∧
      (pmmFreeSeries p' addr 2).words = (boot twoUsableRegions fun _ => 0).pmm.words := by
  have both := addresses_round_trip_iff (boot twoUsableRegions fun _ => 0).pmm
  constructor
  · rcases two_regions_boot with ⟨-, -, found, -, result, -⟩
    rcases Option.isSome_iff_exists.mp result with ⟨⟨addr, p'⟩, taken⟩
    exact ⟨addr, p', taken, (both.1.mpr two_regions_alloc_in_reach 1 addr p' found taken).2⟩
  · rcases two_regions_boot with ⟨-, -, -, found, -, result⟩
    rcases Option.map_eq_some_iff.mp result with ⟨⟨addr, p'⟩, taken, -⟩
    exact ⟨addr, p', taken,
      ((both.2 2 (by decide)).mpr two_regions_series_in_reach 1 addr p' found taken).2⟩

/-- More than 4 GiB, of which everything below is in use. -/
def fullBelowFourGiB : Pmm where
  totalMemory := 0x100020000
  usableMemory := 0x100020000
  totalBlocks := 0x100020
  usableBlocks := 0x100020
  usedBlocks := 0
  regions := []
  map := 0
  mapSize := 0
  words := fun i => if i < 0x8000 then 0xffffffff#32 else 0#32

theorem fullBelow_first : FirstHit (clearBlock fullBelowFourGiB) 0 fullBelowFourGiB.scanned (2 ^ 20) := by
  refine ⟨by decide, by decide, by decide, fun c _ less => ?_⟩
  have word : ((c / 32 : Nat) : Int) < 0x8000 := by omega
  have used : fullBelowFourGiB.used c = true := by
    simp only [Pmm.used, WordBitmap.test, fullBelowFourGiB, if_pos word]
    rw [show 0xffffffff#32 = BitVec.allOnes 32 from rfl, BitVec.getLsbD_allOnes, decide_eq_true_iff]
    exact Nat.mod_lt c (by decide)
  simp [clearBlock, used]

theorem address_wraps_at_four_gib :
    ∃ addr p', pmmMapFirstFree fullBelowFourGiB = (2 ^ 20 : Nat) ∧
      pmmAlloc fullBelowFourGiB = some (addr, p') ∧ addr.toNat = 0 ∧
      (pmmFree p' addr).words ≠ fullBelowFourGiB.words := by
  have taken := pmmAlloc_picked fullBelow_first
  rw [if_neg (by decide)] at taken
  refine ⟨_, _, (first_free_iff _ _).mpr fullBelow_first, taken, by decide, fun restored => ?_⟩
  have word := congrFun restored 0
  exact absurd word (by decide +kernel)

end Neutrino.Physical
