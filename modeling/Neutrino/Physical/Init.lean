import Neutrino.Physical.Allocation

namespace Neutrino.Physical

open Library

def MemoryPhysicalRegion.Contains (r : MemoryPhysicalRegion) (address : Nat) : Prop :=
  r.base.toNat ≤ address ∧ address < r.base.toNat + r.size.toNat

def blocksOf (entries : List MemoryPhysicalRegion) : W64 :=
  (pmmBeforeLoops entries fun _ => 0).totalBlocks

def mapSizeOf (entries : List MemoryPhysicalRegion) : W64 := blocksOf entries / 32#64

/-- The test the first loop of `init_pmm` makes before it puts the bitmap into a region. -/
def fitsMap (mapSize : W64) (r : MemoryPhysicalRegion) : Bool :=
  decide (r.type = .usable ∧ mapSize ≤ r.size ∧ physmem2Megs ≤ r.base)

/-- The physical address of the bitmap: the first fitting region. A region at 2^47 is passed
    over, since its address in the upper half is zero, which the loop reads as "not placed". -/
def mapHome (entries : List MemoryPhysicalRegion) (mapSize : W64) : W64 :=
  ((entries.find? fun r => fitsMap mapSize r && getMemAddress r.base != 0#64).map
    MemoryPhysicalRegion.base).getD (getRmemAddress 0)

/-- The blocks the loop of `pmm_mark_region_used` marks: base and length are both rounded down. -/
def marks (base : W64) (size : W32) (b : Nat) : Bool :=
  (List.range (size / 0x1000#32).toNat).any fun i =>
    decide (wordIndex (toInt32 ((align base).toNat + i)) = ((b / 32 : Nat) : Int) ∧
      bitPosition (toInt32 ((align base).toNat + i)) = b % 32)

/-- `address` lies in the four bytes for each 32 blocks that the bitmap takes at `pmm._map`. -/
def InMap (entries : List MemoryPhysicalRegion) (address : Nat) : Prop :=
  (mapHome entries (mapSizeOf entries)).toNat ≤ address ∧
    address < (mapHome entries (mapSizeOf entries)).toNat + 4 * ((blocksOf entries).toNat / 32)

/-- Some byte of the block is in a region that is not usable, in no region, or in the bitmap. -/
def Reserved (entries : List MemoryPhysicalRegion) (b : Nat) : Prop :=
  ∃ address, b * 4096 ≤ address ∧ address < b * 4096 + 4096 ∧
    ((∃ r ∈ entries, r.type ≠ .usable ∧ r.Contains address) ∨
      (∀ r ∈ entries, ¬ r.Contains address) ∨ InMap entries address)

/-- What `init_pmm` leaves set in the bitmap, read off its arguments: block 0, the rounded
    ranges, and the bits of the bitmap that `memory_set` does not reach. -/
def leftSet (entries : List MemoryPhysicalRegion) (prior : WordBitmap 32) (b : Nat) : Bool :=
  decide (b = 0) ||
    entries.any (fun r => decide (r.type ≠ .usable) && marks r.base (r.size.setWidth 32) b) ||
    marks (mapHome entries (mapSizeOf entries)) ((mapSizeOf entries).setWidth 32) b ||
    (prior.test b && !decide (b / 8 < ((mapSizeOf entries).setWidth 32).toNat))

section loops

theorem markUsedLoop_spec (blocks : Nat) (start : Int) (p : Pmm) :
    (∀ b, (markUsedLoop blocks (toInt32 start) p).used b =
      (p.used b || (List.range blocks).any fun i =>
        decide (wordIndex (toInt32 (start + i)) = ((b / 32 : Nat) : Int) ∧
          bitPosition (toInt32 (start + i)) = b % 32))) ∧
    (markUsedLoop blocks (toInt32 start) p).totalBlocks = p.totalBlocks ∧
    (markUsedLoop blocks (toInt32 start) p).map = p.map ∧
    (markUsedLoop blocks (toInt32 start) p).mapSize = p.mapSize := by
  induction blocks generalizing start p with
  | zero => simp [markUsedLoop]
  | succ blocks ih =>
    have wrapped : toInt32 (toInt32 start + 1) = toInt32 (start + 1) := Int.bmod_add_bmod
    obtain ⟨bits, total, map, size⟩ :=
      ih (start + 1) (pmmUpdateBlocks (pmmMapSet p (toInt32 start)) 1#32)
    rw [markUsedLoop, wrapped]
    refine ⟨fun b => ?_, total, map, size⟩
    rw [bits b, List.range_succ_eq_map, List.any_cons, List.any_map, used_pmmUpdateBlocks, Pmm.used,
      pmmMapSet, WordBitmap.test_setAt _ _ _ _ (by decide), Bool.or_assoc]
    congr 1
    congr 1
    · simp [eq_comm]
    · congr 1
      funext i
      rw [Function.comp_apply, show start + 1 + (i : Int) = start + ((i + 1 : Nat) : Int) by omega]

theorem pmmMarkRegionUsed_spec (p : Pmm) (base : W64) (size : W32) :
    (∀ b, (pmmMarkRegionUsed p base size).used b = (p.used b || marks base size b)) ∧
    (pmmMarkRegionUsed p base size).totalBlocks = p.totalBlocks ∧
    (pmmMarkRegionUsed p base size).map = p.map ∧
    (pmmMarkRegionUsed p base size).mapSize = p.mapSize :=
  markUsedLoop_spec _ _ p

theorem markUnusable_fold (entries : List MemoryPhysicalRegion) (p : Pmm) :
    (∀ b, (entries.foldl markUnusable p).used b = (p.used b || entries.any fun r =>
      decide (r.type ≠ .usable) && marks r.base (r.size.setWidth 32) b)) ∧
    (entries.foldl markUnusable p).totalBlocks = p.totalBlocks ∧
    (entries.foldl markUnusable p).mapSize = p.mapSize := by
  induction entries generalizing p with
  | nil => simp
  | cons entry entries ih =>
    obtain ⟨bits, total, size⟩ := ih (markUnusable p entry)
    obtain ⟨region, regionTotal, -, regionSize⟩ :=
      pmmMarkRegionUsed_spec p entry.base (entry.size.setWidth 32)
    by_cases usable : entry.type = .usable
    · simp_all [markUnusable]
    · simp only [markUnusable, ne_eq, usable, not_false_eq_true, ↓reduceIte] at bits total size
      simp only [List.foldl_cons, markUnusable, ne_eq, usable, not_false_eq_true, ↓reduceIte,
        List.any_cons, decide_true, Bool.true_and]
      exact ⟨fun b => by rw [bits b, region b, Bool.or_assoc], total.trans regionTotal,
        size.trans regionSize⟩

theorem test_zeroByte (words : WordBitmap 32) (k b : Nat) :
    WordBitmap.test (Function.update words ((k / 4 : Nat) : Int)
      (words ((k / 4 : Nat) : Int) &&& ~~~(0xff#32 <<< (8 * (k % 4))))) b =
      (words.test b && !decide (b / 8 = k)) := by
  have inside : b % 32 < 32 := Nat.mod_lt b (by decide)
  by_cases word : b / 32 = k / 4
  · have mask : (~~~(0xff#32 <<< (8 * (k % 4)))).getLsbD (b % 32) = !decide (b / 8 = k) := by
      rw [BitVec.getLsbD_not, BitVec.getLsbD_shiftLeft, show 0xff#32 = BitVec.ofNat 32 (2 ^ 8 - 1)
        from rfl, BitVec.getLsbD_ofNat, Nat.testBit_two_pow_sub_one]
      simp only [inside, decide_true, Bool.true_and]
      rw [Bool.eq_iff_iff]
      simp only [Bool.not_eq_true', Bool.and_eq_false_iff, Bool.not_eq_false',
        decide_eq_true_eq, decide_eq_false_iff_not]
      omega
    simp only [WordBitmap.test, word, Function.update_self, BitVec.getLsbD_and, mask]
  · have other : ((b / 32 : Nat) : Int) ≠ ((k / 4 : Nat) : Int) := by omega
    have away : b / 8 ≠ k := by omega
    rw [WordBitmap.test, Function.update_of_ne other, WordBitmap.test]
    simp [away]

theorem test_zeroBytes (len : Nat) (words : WordBitmap 32) (b : Nat) :
    (zeroBytes len words).test b = (words.test b && !decide (b / 8 < len)) := by
  induction len with
  | zero => simp [zeroBytes]
  | succ len ih =>
    have last : zeroBytes (len + 1) words = Function.update (zeroBytes len words)
        ((len / 4 : Nat) : Int) (zeroBytes len words ((len / 4 : Nat) : Int) &&&
          ~~~(0xff#32 <<< (8 * (len % 4)))) := by
      simp only [zeroBytes, List.range_succ, List.foldl_append, List.foldl_cons, List.foldl_nil]
    rw [last, test_zeroByte, ih, Bool.and_assoc]
    congr 1
    rw [Bool.eq_iff_iff]
    simp only [Bool.and_eq_true, Bool.not_eq_true', decide_eq_false_iff_not]
    omega

theorem placeMap_cases (p : Pmm) (entry : MemoryPhysicalRegion) :
    (p.map = 0#64 ∧ fitsMap p.mapSize entry = true ∧
      (placeMap p entry).map = getMemAddress entry.base ∧
      ∀ b, (placeMap p entry).used b =
        (p.used b && !decide (b / 8 < (p.mapSize.setWidth 32).toNat))) ∨
    (¬ (p.map = 0#64 ∧ fitsMap p.mapSize entry = true) ∧ (placeMap p entry).map = p.map ∧
      ∀ b, (placeMap p entry).used b = p.used b) := by
  by_cases chosen : p.map = 0#64 ∧ fitsMap p.mapSize entry = true
  · obtain ⟨unplaced, fits⟩ := chosen
    have region := of_decide_eq_true fits
    refine .inl ⟨unplaced, fits, ?_, fun b => ?_⟩
    · simp only [placeMap, region, unplaced, and_self, ↓reduceIte]
    · simp only [placeMap, region, unplaced, and_self, ↓reduceIte]
      exact test_zeroBytes _ _ b
  · have skip : ¬ (entry.type = .usable ∧ p.map = 0#64 ∧ p.mapSize ≤ entry.size ∧
        physmem2Megs ≤ entry.base) :=
      fun ⟨usable, unplaced, size, base⟩ => chosen ⟨unplaced, decide_eq_true ⟨usable, size, base⟩⟩
    refine .inr ⟨chosen, ?_, fun b => ?_⟩ <;>
    · simp only [placeMap, if_neg skip]
      split <;> rfl

theorem placeMap_same (p : Pmm) (entry : MemoryPhysicalRegion) :
    (placeMap p entry).totalBlocks = p.totalBlocks ∧ (placeMap p entry).mapSize = p.mapSize := by
  simp only [placeMap]
  split <;> split <;> exact ⟨rfl, rfl⟩

theorem placeMap_fold_map (entries : List MemoryPhysicalRegion) (p : Pmm) :
    getRmemAddress (entries.foldl placeMap p).map =
      if p.map = 0#64 then mapHome entries p.mapSize else getRmemAddress p.map := by
  induction entries generalizing p with
  | nil =>
    by_cases unplaced : p.map = 0#64
    · simp [unplaced, mapHome]
    · simp [unplaced]
  | cons entry entries ih =>
    rw [List.foldl_cons, ih, (placeMap_same p entry).2]
    rcases placeMap_cases p entry with ⟨unplaced, fits, map, -⟩ | ⟨skip, map, -⟩
    · rw [map, if_pos unplaced, mapHome, mapHome, List.find?_cons, fits, Bool.true_and]
      by_cases zero : getMemAddress entry.base = 0#64
      · simp [zero]
      · have nonzero : (getMemAddress entry.base != 0#64) = true := by simpa using zero
        simp [zero, nonzero]
    · rw [map]
      by_cases unplaced : p.map = 0#64
      · have unfit : fitsMap p.mapSize entry = false := by
          simpa using fun fits => skip ⟨unplaced, fits⟩
        rw [if_pos unplaced, if_pos unplaced, mapHome, mapHome, List.find?_cons, unfit,
          Bool.false_and]
      · rw [if_neg unplaced, if_neg unplaced]

theorem placeMap_fold_used (entries : List MemoryPhysicalRegion) (p : Pmm) (b : Nat) :
    (entries.foldl placeMap p).used b = (p.used b &&
      !(decide (b / 8 < (p.mapSize.setWidth 32).toNat) &&
        (decide (p.map = 0#64) && entries.any (fitsMap p.mapSize)))) := by
  induction entries generalizing p with
  | nil => simp
  | cons entry entries ih =>
    rw [List.foldl_cons, ih, (placeMap_same p entry).2, List.any_cons]
    rcases placeMap_cases p entry with ⟨unplaced, fits, -, used⟩ | ⟨skip, map, used⟩
    · rw [used b, fits, unplaced]
      cases p.used b <;> cases decide (b / 8 < (p.mapSize.setWidth 32).toNat) <;> simp
    · rw [used b, map]
      by_cases unplaced : p.map = 0#64
      · have unfit : fitsMap p.mapSize entry = false := by
          simpa using fun fits => skip ⟨unplaced, fits⟩
        rw [unfit, Bool.false_or]
      · simp [unplaced]

theorem placeMap_fold_same (entries : List MemoryPhysicalRegion) (p : Pmm) :
    (entries.foldl placeMap p).totalBlocks = p.totalBlocks ∧
      (entries.foldl placeMap p).mapSize = p.mapSize := by
  induction entries generalizing p with
  | nil => exact ⟨rfl, rfl⟩
  | cons entry entries ih =>
    obtain ⟨total, size⟩ := ih (placeMap p entry)
    obtain ⟨stepTotal, stepSize⟩ := placeMap_same p entry
    exact ⟨total.trans stepTotal, size.trans stepSize⟩

end loops

/-- Some usable region at or above two mebibytes holds the whole bitmap. -/
def HasRoom (entries : List MemoryPhysicalRegion) : Prop :=
  ∃ r ∈ entries, r.type = .usable ∧ physmem2Megs ≤ r.base ∧
    4 * ((blocksOf entries).toNat / 32) ≤ r.size.toNat

theorem HasRoom.fits {entries : List MemoryPhysicalRegion} (room : HasRoom entries) :
    entries.any (fitsMap (mapSizeOf entries)) = true := by
  obtain ⟨r, member, usable, base, size⟩ := room
  refine List.any_eq_true.mpr ⟨r, member, decide_eq_true ⟨usable, ?_, base⟩⟩
  simp only [mapSizeOf, BitVec.le_def, BitVec.toNat_udiv, BitVec.toNat_ofNat, Nat.reducePow,
    Nat.reduceMod]
  omega

theorem initPmm_totalBlocks (entries : List MemoryPhysicalRegion) (prior : WordBitmap 32) :
    (initPmm entries prior).totalBlocks = blocksOf entries := by
  rw [initPmm, (markUnusable_fold entries _).2.1, pmmMapSet, (pmmMarkRegionUsed_spec _ _ _).2.1,
    (placeMap_fold_same entries _).1]
  rfl

theorem initPmm_used (entries : List MemoryPhysicalRegion) (prior : WordBitmap 32)
    (room : HasRoom entries) (b : Nat) :
    (initPmm entries prior).used b = leftSet entries prior b := by
  have fits := room.fits
  have size : (entries.foldl placeMap (pmmBeforeLoops entries prior)).mapSize = mapSizeOf entries :=
    (placeMap_fold_same entries _).2
  have home : getRmemAddress (entries.foldl placeMap (pmmBeforeLoops entries prior)).map =
      mapHome entries (mapSizeOf entries) := placeMap_fold_map entries _
  have stale : (entries.foldl placeMap (pmmBeforeLoops entries prior)).used b =
      (prior.test b && !decide (b / 8 < ((mapSizeOf entries).setWidth 32).toNat)) := by
    have cleared := placeMap_fold_used entries (pmmBeforeLoops entries prior) b
    rwa [show (pmmBeforeLoops entries prior).mapSize = mapSizeOf entries from rfl, fits,
      Bool.and_true, show decide ((pmmBeforeLoops entries prior).map = 0#64) = true from rfl,
      Bool.and_true] at cleared
  rw [initPmm, (markUnusable_fold entries _).1, show (0 : Int) = ((0 : Nat) : Int) from rfl,
    used_pmmMapSet, (pmmMarkRegionUsed_spec _ _ _).1, home, size]
  change ((((entries.foldl placeMap (pmmBeforeLoops entries prior)).used b || _) || _) || _) = _
  rw [stale, leftSet]
  ac_rfl

def MarksReserved (entries : List MemoryPhysicalRegion) (prior : WordBitmap 32) : Prop :=
  ∀ b, b < (initPmm entries prior).scanned → Reserved entries b →
    (initPmm entries prior).used b = true

/-- Whatever calls came before, on bitmaps that did not mislead them, the block a `pmm_alloc` returns
    is usable memory throughout and holds no byte of the bitmap. -/
def LaterAllocsUsable (entries : List MemoryPhysicalRegion) (prior : WordBitmap 32) : Prop :=
  ∀ calls s, Run ReliableStep (boot entries prior) calls s → Reliable s.pmm .alloc →
    ∀ addr p, pmmAlloc s.pmm = some (addr, p) →
      ∀ address, addr.toNat / 4096 * 4096 ≤ address → address < addr.toNat / 4096 * 4096 + 4096 →
        (∃ r ∈ entries, r.type = .usable ∧ r.Contains address) ∧ ¬ InMap entries address

theorem marked_allocs_usable {entries : List MemoryPhysicalRegion} {prior : WordBitmap 32}
    (marked : MarksReserved entries prior) : LaterAllocsUsable entries prior := by
  intro calls s run reliable addr p result address lower upper
  obtain ⟨b, first, rfl, -⟩ := pmmAlloc_cases result
  have small := FirstHit.small first reliable
  rw [block_address b small, Nat.mul_div_cancel _ (by decide)] at lower upper
  have inv := run_invariant run
  have clear := (FirstHit.clear_block first).1
  have total : s.pmm.totalBlocks = (initPmm entries prior).totalBlocks := run_keeps_total run
  have free : ¬ Reserved entries b := by
    intro reserved
    have used := marked b (by rw [Pmm.scanned, ← total]; exact first.2.1) reserved
    rw [(inv.kept b used).1] at clear
    contradiction
  have notReserved : ¬ ((∃ r ∈ entries, r.type ≠ .usable ∧ r.Contains address) ∨
      (∀ r ∈ entries, ¬ r.Contains address) ∨ InMap entries address) :=
    fun why => free ⟨address, lower, upper, why⟩
  simp only [not_or, not_exists, not_and, not_forall, not_not] at notReserved
  obtain ⟨allUsable, ⟨r, member, contains⟩, outside⟩ := notReserved
  refine ⟨⟨r, member, ?_, contains⟩, outside⟩
  by_contra other
  exact allUsable r member other contains

theorem init_marks_reserved_iff (entries : List MemoryPhysicalRegion) (prior : WordBitmap 32)
    (room : HasRoom entries) :
    (MarksReserved entries prior ∧ LaterAllocsUsable entries prior) ↔
      ∀ b, b < (blocksOf entries).toNat / 32 * 32 → Reserved entries b →
        leftSet entries prior b = true := by
  have scanned : (initPmm entries prior).scanned = (blocksOf entries).toNat / 32 * 32 := by
    rw [Pmm.scanned, initPmm_totalBlocks]
  constructor
  · rintro ⟨marked, -⟩ b below reserved
    rw [← initPmm_used entries prior room]
    exact marked b (by rwa [scanned]) reserved
  · intro covered
    have marked : MarksReserved entries prior := by
      intro b below reserved
      rw [initPmm_used entries prior room]
      exact covered b (by rwa [← scanned]) reserved
    exact ⟨marked, marked_allocs_usable marked⟩

theorem marks_of_mem {base : W64} {size : W32} {b : Nat} (low : (align base).toNat ≤ b)
    (high : b < (align base).toNat + (size / 0x1000#32).toNat) (signed : b < 2 ^ 31) : marks base size b = true := by
  refine List.any_eq_true.mpr ⟨b - (align base).toNat, List.mem_range.mpr (by omega), decide_eq_true ?_⟩
  rw [← Int.natCast_add, show (align base).toNat + (b - (align base).toNat) = b by omega, toInt32_of_small b signed,
    wordIndex_natCast, bitPosition_natCast]
  exact ⟨rfl, rfl⟩

/-- With no framebuffer the size of the first region is taken off the total: of the 512 blocks
    scanned the first half is usable and the second reserved, and the bitmap lies behind them. -/
def halfReserved : List MemoryPhysicalRegion :=
  [⟨0, 0x100000, 0x100000, .usable⟩, ⟨0x100000, 0x100000, 0x200000, .reserved⟩,
    ⟨0x200000, 0x100000, 0x300000, .usable⟩]

theorem init_marks_reserved_half :
    HasRoom halfReserved ∧ 300 < (initPmm halfReserved fun _ => 0).scanned ∧ Reserved halfReserved 300 ∧
      MarksReserved halfReserved (fun _ => 0) ∧ LaterAllocsUsable halfReserved (fun _ => 0) := by
  have room : HasRoom halfReserved :=
    ⟨⟨0x200000, 0x100000, 0x300000, .usable⟩, by decide, by decide, by decide, by decide⟩
  have blocks : (blocksOf halfReserved).toNat / 32 * 32 = 512 := by decide
  have home : (mapHome halfReserved (mapSizeOf halfReserved)).toNat = 0x200000 := by decide
  refine ⟨room, by rw [Pmm.scanned, initPmm_totalBlocks]; decide, ⟨300 * 4096, by decide, by decide, .inl
    ⟨⟨0x100000, 0x100000, 0x200000, .reserved⟩, by decide, by decide, by decide, by decide⟩⟩, ?_⟩
  refine (init_marks_reserved_iff halfReserved (fun _ => 0) room).mpr fun b below reserved => ?_
  by_cases low : b < 256
  · obtain ⟨address, lower, upper, ⟨r, member, unusable, inside⟩ | hole | inMap⟩ := reserved
    · have starts : ∀ r ∈ halfReserved, r.type ≠ .usable → r.base.toNat = 0x100000 := by decide
      have start := inside.1
      rw [starts r member unusable] at start
      omega
    · refine absurd ?_ (hole ⟨0, 0x100000, 0x100000, .usable⟩ (by decide))
      constructor <;> simp
      omega
    · have start := inMap.1
      omega
  · have marked : marks 0x100000 ((0x100000 : W64).setWidth 32) b = true :=
      marks_of_mem (Nat.not_lt.mp low) (Nat.lt_of_lt_of_eq below blocks) (by omega)
    have set : halfReserved.any (fun r => decide (r.type ≠ .usable) && marks r.base (r.size.setWidth 32) b) = true := by
      simp only [halfReserved, List.any_cons, marked]
      rfl
    rw [leftSet, set]
    simp

/-- A page, two mebibytes less a page reserved, a mebibyte usable: no gaps and all aligned. -/
def gaplessRegions : List MemoryPhysicalRegion :=
  [⟨0, 0x1000, 0x1000, .usable⟩, ⟨0x1000, 0x1ff000, 0x200000, .reserved⟩,
    ⟨0x200000, 0x100000, 0x300000, .usable⟩]

/-- The bitmap of 92 bytes lies in block 512; 23 bytes round down to no block at all, so the
    bitmap's own block stays free. -/
theorem bitmap_block_left_free :
    HasRoom gaplessRegions ∧ ¬ MarksReserved gaplessRegions fun _ => 0 := by
  refine ⟨⟨⟨0x200000, 0x100000, 0x300000, .usable⟩, by decide, by decide, by decide, by decide⟩, ?_⟩
  intro marked
  have used := marked 512 (by decide +kernel)
    ⟨0x200000, by decide, by decide, .inr (.inr ⟨by decide, by decide⟩)⟩
  exact absurd used (by decide +kernel)

end Neutrino.Physical
