import Mathlib.Data.List.Pairwise
import Neutrino.Library.Runs
import Neutrino.Physical.Search

namespace Neutrino.Physical

open Library

/-- A call's result that has not been freed yet, with the bitmap just before the call. -/
structure Allocation where
  addr : W64
  blocks : W32
  before : WordBitmap 32

def Allocation.start (a : Allocation) : Nat := a.addr.toNat / 4096

def Allocation.Covers (a : Allocation) (block : Nat) : Prop :=
  a.start ≤ block ∧ block < a.start + a.blocks.toNat

structure Allocator where
  pmm : Pmm
  live : List Allocation

inductive Call
  | alloc
  | allocSeries (size : W32)
  | free (addr : W64)
  | freeSeries (addr : W64) (size : W32)

def Allocation.named (addr : W64) (blocks : W32) (a : Allocation) : Bool :=
  a.addr == addr && a.blocks == blocks

/-- `none` is a call that does not return, or one the callers do not make: a series of no
    blocks, a free of something that is not live. -/
def Call.step (s : Allocator) : Call → Option Allocator
  | .alloc => (pmmAlloc s.pmm).map fun (addr, p) => ⟨p, ⟨addr, 1, s.pmm.words⟩ :: s.live⟩
  | .allocSeries size =>
    if size = 0 then none
    else (pmmAllocSeries s.pmm size).map fun (addr, p) => ⟨p, ⟨addr, size, s.pmm.words⟩ :: s.live⟩
  | .free addr =>
    if s.live.any (Allocation.named addr 1)
    then some ⟨pmmFree s.pmm addr, s.live.eraseP (Allocation.named addr 1)⟩ else none
  | .freeSeries addr size =>
    if s.live.any (Allocation.named addr size)
    then some ⟨pmmFreeSeries s.pmm addr size, s.live.eraseP (Allocation.named addr size)⟩ else none

def boot (entries : List MemoryPhysicalRegion) (prior : WordBitmap 32) : Allocator :=
  ⟨initPmm entries prior, []⟩

def Apart (a b : Allocation) : Prop := ∀ block, a.Covers block → ¬ b.Covers block

/-- Live allocations share no block, lie below `total_blocks` and were clear when handed out. -/
def Allocator.Sound (s : Allocator) : Prop :=
  s.live.Pairwise Apart ∧
    ∀ a ∈ s.live, ∀ block, a.Covers block →
      block < s.pmm.totalBlocks.toNat ∧ a.before.test block = false

/-- Enough of the `size + 1` blocks from `b` on look free to `pmm_map_get`. -/
def fitsSeries (p : Pmm) (size b : Nat) : Bool :=
  !p.used b && decide (size ≤ (List.range (size + 1)).countP fun k =>
    decide (pmmMapGet p (toInt32 ((b % 2 ^ 32 + k : Nat) : Int)) = 0#8))

/-- `b` is the first fitting block in the order of the search: from the word numbered by the
    block after the bitmap, and from the start if there is none. -/
def FirstFit (p : Pmm) (size b : Nat) : Prop :=
  FirstHit (fitsSeries p size) (blockAfterMap p * 32) p.scanned b ∨
    (∀ c, blockAfterMap p * 32 ≤ c → c < p.scanned → fitsSeries p size c = false) ∧
      FirstHit (fitsSeries p size) 0 p.scanned b

/-- The blocks from `b` on are clear and in reach of a 32 bit address and of the bitmap. -/
structure ClearRun (p : Pmm) (size b : Nat) : Prop where
  small : b < 2 ^ 20
  inside : b + size ≤ p.totalBlocks.toNat
  clear : ∀ k, k < size → p.used (b + k) = false

/-- How many of the `size + 1` blocks that the search looks at from `b` on it sees as used. -/
def Pmm.seenFrom (p : Pmm) (size b : Nat) : Nat := (List.range (size + 1)).countP fun k => p.seen (b + k)

/-- The search comes to `b` before it comes to `c`. -/
def Earlier (p : Pmm) (b c : Nat) : Prop :=
  b < c ∧ (blockAfterMap p * 32 ≤ b ∨ c < blockAfterMap p * 32) ∨ c < blockAfterMap p * 32 ∧ blockAfterMap p * 32 ≤ b

/-- What the bitmap has to be like for a call to be given clear blocks. A single block is looked
    for in the words themselves. A series is looked for with `pmm_map_get`, and a clear block that
    begins no clear series is passed over only for two used blocks that are seen. -/
def Reliable (p : Pmm) : Call → Prop
  | .alloc => ∀ c < p.scanned, p.used c = false → ∃ b < 2 ^ 20, b ≤ c ∧ p.used b = false
  | .allocSeries size =>
    if size = 1 then ∀ c < p.scanned, p.used c = false → ∃ b < 2 ^ 20, b ≤ c ∧ p.used b = false
    else p.totalBlocks.toNat + size.toNat < 2 ^ 31 ∧
      ∀ c < p.scanned, p.used c = false → ¬ ClearRun p size.toNat c → 2 ≤ p.seenFrom size.toNat c ∨
        ∃ b < p.scanned, ClearRun p size.toNat b ∧ Earlier p b c
  | _ => True

theorem seriesProbe_iff (p : Pmm) (size startingBit remaining count free : Nat) (less : free < size) :
    seriesProbe p size startingBit remaining count free = true ↔
      size ≤ free + (List.range' count remaining).countP fun k =>
        decide (pmmMapGet p (toInt32 ((startingBit + k : Nat) : Int)) = 0#8) := by
  induction remaining generalizing count free with
  | zero => simp [seriesProbe]; omega
  | succ remaining ih =>
    rw [seriesProbe, List.range'_succ, List.countP_cons]
    by_cases clear : pmmMapGet p (toInt32 ((startingBit + count : Nat) : Int)) = 0#8
    · simp only [clear, ↓reduceIte, decide_true]
      by_cases enough : free + 1 = size
      · simp [enough]; omega
      · rw [if_neg enough, ih (count + 1) (free + 1) (by omega)]
        omega
    · simp only [clear, ↓reduceIte, decide_false, Bool.false_eq_true, if_neg (Nat.ne_of_lt less),
        Nat.add_zero]
      exact ih (count + 1) free less

theorem seriesFits_eq (p : Pmm) (size b : Nat) (positive : 0 < size) :
    seriesFits p size b = fitsSeries p size b := by
  have probe := seriesProbe_iff p size (b % 2 ^ 32) (size + 1) 0 0 positive
  rw [Nat.zero_add, ← List.range_eq_range'] at probe
  simp only [seriesFits, fitsSeries]
  congr 1
  rw [Bool.eq_iff_iff, probe, decide_eq_true_iff]

theorem fitsSeries_skips_full (p : Pmm) (size : Nat) :
    ∀ i, wordFull p i = true → ∀ j, j < 32 → fitsSeries p size (i * 32 + j) = false := by
  intro i full j inside
  simp only [fitsSeries, full_word_used p i j inside (of_decide_eq_true full), Bool.not_true,
    Bool.false_and]

theorem fitsSeries_iff (p : Pmm) (size b : Nat) (signed : b + size < 2 ^ 31) :
    fitsSeries p size b = true ↔ p.used b = false ∧ p.seenFrom size b ≤ 1 := by
  have looks : ∀ k ∈ List.range (size + 1),
      decide (pmmMapGet p (toInt32 ((b % 2 ^ 32 + k : Nat) : Int)) = 0#8) = true ↔ (!p.seen (b + k)) = true := by
    intro k member
    have below := List.mem_range.mp member
    rw [Nat.mod_eq_of_lt (by omega), toInt32_of_small _ (by omega), decide_eq_true_iff, pmmMapGet_eq_zero_iff]
    simp
  have total := List.length_eq_countP_add_countP (l := List.range (size + 1)) fun k => p.seen (b + k)
  simp only [fitsSeries, List.countP_congr looks, Bool.and_eq_true, decide_eq_true_iff, Bool.not_eq_true',
    Pmm.seenFrom]
  rw [List.length_range] at total
  simp only [Bool.not_eq_true, Bool.decide_eq_false] at total
  constructor
  · rintro ⟨clear, enough⟩
    exact ⟨clear, by omega⟩
  · rintro ⟨clear, few⟩
    exact ⟨clear, by omega⟩

theorem seenFrom_le_one {p : Pmm} {size b : Nat} (clear : ∀ k < size, p.used (b + k) = false) :
    p.seenFrom size b ≤ 1 := by
  have unseen : (List.range size).countP (fun k => p.seen (b + k)) = 0 := by
    rw [List.countP_eq_zero]
    intro k member
    simp [Pmm.seen, clear k (List.mem_range.mp member)]
  rw [Pmm.seenFrom, List.range_succ, List.countP_append, unseen, Nat.zero_add]
  exact List.countP_le_length

theorem ClearRun.fits {p : Pmm} {size b : Nat} (run : ClearRun p size b) (several : 0 < size)
    (signed : b + size < 2 ^ 31) : fitsSeries p size b = true :=
  (fitsSeries_iff p size b signed).mpr ⟨run.clear 0 several, seenFrom_le_one run.clear⟩

theorem FirstFit.clear {p : Pmm} {size b : Nat} (fit : FirstFit p size b) :
    b < p.scanned ∧ fitsSeries p size b = true := by
  rcases fit with ⟨-, inside, fits, -⟩ | ⟨-, -, inside, fits, -⟩
  · exact ⟨inside, fits⟩
  · exact ⟨inside, fits⟩

theorem FirstFit.not_earlier {p : Pmm} {size b c : Nat} (fit : FirstFit p size b) (inside : c < p.scanned)
    (fits : fitsSeries p size c = true) : ¬ Earlier p c b := by
  intro earlier
  have later : ∀ start, start ≤ c → c < b → FirstHit (fitsSeries p size) start p.scanned b → False := by
    intro start low below first
    simp [first.2.2.2 c low below] at fits
  rcases fit with first | ⟨absent, first⟩
  · have low := first.1
    rcases earlier with ⟨below, behind | front⟩ | ⟨front, -⟩
    · exact later _ behind below first
    · omega
    · omega
  · rcases earlier with ⟨below, -⟩ | ⟨-, behind⟩
    · exact later 0 (Nat.zero_le c) below first
    · simp [absent c behind inside] at fits

theorem FirstFit.earlier {p : Pmm} {size b c : Nat} (fit : FirstFit p size b) (inside : c < p.scanned)
    (fits : fitsSeries p size c = true) (other : c ≠ b) : Earlier p b c := by
  have after := fit.not_earlier inside fits
  simp only [Earlier] at after ⊢
  omega

theorem series_from_iff (p : Pmm) (size fromBlock b : Nat) (positive : 0 < size) :
    pmmMapFirstFreeSeriesStartingFrom p size fromBlock = b ↔
      FirstHit (fitsSeries p size) (fromBlock * 32) p.scanned b := by
  rw [firstFreeSeriesStartingFrom_eq_scan, scan_result_iff, scanWords,
    show seriesFits p size = fitsSeries p size from
      funext fun b => seriesFits_eq p size b positive,
    scan_eq_some_iff b (fitsSeries_skips_full p size)]
  rfl

theorem series_from_invalid (p : Pmm) (size fromBlock : Nat) (positive : 0 < size) :
    pmmMapFirstFreeSeriesStartingFrom p size fromBlock = -1 ↔
      ∀ c, fromBlock * 32 ≤ c → c < p.scanned → fitsSeries p size c = false := by
  rw [firstFreeSeriesStartingFrom_eq_scan, scan_result_invalid, scanWords,
    show seriesFits p size = fitsSeries p size from
      funext fun b => seriesFits_eq p size b positive,
    scan_eq_none_iff (fitsSeries_skips_full p size)]
  rfl

theorem scan_result_cases (p : Pmm) (size fromBlock : Nat) (positive : 0 < size) :
    pmmMapFirstFreeSeriesStartingFrom p size fromBlock = -1 ∨
      ∃ b : Nat, pmmMapFirstFreeSeriesStartingFrom p size fromBlock = b ∧
        FirstHit (fitsSeries p size) (fromBlock * 32) p.scanned b := by
  rw [firstFreeSeriesStartingFrom_eq_scan]
  cases found : scan 32 (wordFull p) (seriesFits p size) (scanWords p fromBlock) with
  | none => exact .inl rfl
  | some b =>
    refine .inr ⟨b, rfl, (series_from_iff p size fromBlock b positive).mp ?_⟩
    rw [firstFreeSeriesStartingFrom_eq_scan, found]
    rfl

theorem first_free_series_cases (p : Pmm) (size : Nat) (several : 1 < size) :
    pmmMapFirstFreeSeries p size = -1 ∨
      ∃ b : Nat, pmmMapFirstFreeSeries p size = b ∧ FirstFit p size b := by
  have positive : 0 < size := by omega
  simp only [pmmMapFirstFreeSeries, blockPositionInvalid, if_neg (show size ≠ 0 by omega),
    if_neg (show size ≠ 1 by omega)]
  rcases scan_result_cases p size (blockAfterMap p) positive with invalid | ⟨b, found, first⟩
  · rw [invalid]
    simp only [ne_eq, not_true_eq_false, ↓reduceIte]
    have absent := (series_from_invalid p size _ positive).mp invalid
    rcases scan_result_cases p size 0 positive with invalid | ⟨b, found, first⟩
    · exact .inl (by rw [invalid]; rfl)
    · refine .inr ⟨b, by rw [found]; simp, .inr ⟨absent, ?_⟩⟩
      simpa only [Nat.zero_mul] using first
  · exact .inr ⟨b, by rw [found]; simp, .inl first⟩

@[simp]
theorem setSeries_totalBlocks (block i : W32) (count : Nat) (p : Pmm) :
    (setSeries block count i p).totalBlocks = p.totalBlocks := by
  induction count generalizing i p with
  | zero => rfl
  | succ count ih => exact ih (i + 1) _

@[simp]
theorem unsetSeries_totalBlocks (block i : W32) (count : Nat) (p : Pmm) :
    (unsetSeries block count i p).totalBlocks = p.totalBlocks := by
  induction count generalizing i p with
  | zero => rfl
  | succ count ih => exact ih (i + 1) _

@[simp]
theorem pmmUpdateBlocks_totalBlocks (p : Pmm) (increment : W32) :
    (pmmUpdateBlocks p increment).totalBlocks = p.totalBlocks := rfl

theorem setSeries_spec (block i : W32) (count : Nat) (p : Pmm)
    (bound : block.toNat + i.toNat + count ≤ 2 ^ 31) :
    ∀ c, (setSeries block count i p).used c =
      (p.used c || decide (block.toNat + i.toNat ≤ c ∧ c < block.toNat + i.toNat + count)) := by
  induction count generalizing i p with
  | zero => exact fun c => by simp [setSeries]
  | succ count ih =>
    have index : (block + i).toNat = block.toNat + i.toNat := by
      rw [BitVec.toNat_add]
      omega
    have next : (i + 1).toNat = i.toNat + 1 := by
      rw [BitVec.toNat_add]
      simp only [BitVec.ofNat_eq_ofNat, BitVec.toNat_ofNat]
      omega
    have bits := ih (i + 1) (pmmMapSet p (toInt32 (block + i).toNat)) (by omega)
    intro c
    rw [setSeries, bits c, index, next, toInt32_of_small _ (by omega), used_pmmMapSet, Bool.or_assoc]
    congr 1
    rw [Bool.eq_iff_iff]
    simp only [Bool.or_eq_true, decide_eq_true_eq]
    omega

theorem unsetSeries_spec (block i : W32) (count : Nat) (p : Pmm)
    (bound : block.toNat + i.toNat + count ≤ 2 ^ 31) :
    ∀ c, (unsetSeries block count i p).used c =
      (p.used c && !decide (block.toNat + i.toNat ≤ c ∧ c < block.toNat + i.toNat + count)) := by
  induction count generalizing i p with
  | zero => exact fun c => by simp [unsetSeries]; omega
  | succ count ih =>
    have index : (block + i).toNat = block.toNat + i.toNat := by
      rw [BitVec.toNat_add]
      omega
    have next : (i + 1).toNat = i.toNat + 1 := by
      rw [BitVec.toNat_add]
      simp only [BitVec.ofNat_eq_ofNat, BitVec.toNat_ofNat]
      omega
    have bits := ih (i + 1) (pmmMapUnset p (toInt32 (block + i).toNat)) (by omega)
    intro c
    rw [unsetSeries, bits c, index, next, toInt32_of_small _ (by omega), used_pmmMapUnset,
      Bool.and_assoc]
    congr 1
    rw [Bool.eq_iff_iff]
    simp only [Bool.and_eq_true, Bool.not_eq_true', decide_eq_false_iff_not]
    omega

/-- The range the invariant keeps for a live allocation: addressed exactly, inside the bitmap's
    blocks and marked used. -/
structure Held (p : Pmm) (a : Allocation) : Prop where
  address : a.addr.toNat = a.start * 4096
  small : a.start < 2 ^ 20
  inside : a.start + a.blocks.toNat ≤ p.totalBlocks.toNat
  signed : a.start + a.blocks.toNat ≤ 2 ^ 31
  clear : ∀ block, a.Covers block → a.before.test block = false
  marked : ∀ block, a.Covers block → p.used block = true

/-- Besides the live ranges, some blocks may be reserved for good: used, and in no live range. -/
structure Allocator.Invariant (reserved : Nat → Prop) (s : Allocator) : Prop where
  apart : s.live.Pairwise Apart
  held : ∀ a ∈ s.live, Held s.pmm a
  kept : ∀ block, reserved block → s.pmm.used block = true ∧ ∀ a ∈ s.live, ¬ a.Covers block

section
variable {reserved : Nat → Prop} {s next : Allocator}

theorem Allocator.Invariant.sound (inv : s.Invariant reserved) : s.Sound := by
  refine ⟨inv.apart, fun a member block covered => ⟨?_, (inv.held a member).clear block covered⟩⟩
  have inside := (inv.held a member).inside
  have upper := covered.2
  omega

theorem block_address (b : Nat) (small : b < 2 ^ 20) :
    ((BitVec.ofNat 32 b * 0x1000#32).setWidth 64).toNat = b * 4096 := by
  simp only [BitVec.toNat_setWidth, BitVec.toNat_mul, BitVec.toNat_ofNat]
  omega

theorem address_block (a : Allocation) (address : a.addr.toNat = a.start * 4096)
    (small : a.start < 2 ^ 20) : (a.addr.setWidth 32 / 0x1000#32).toNat = a.start := by
  simp only [BitVec.toNat_udiv, BitVec.toNat_setWidth, BitVec.toNat_ofNat, address,
    Nat.reducePow, Nat.reduceMod]
  omega

theorem Allocator.Invariant.hand_out (inv : s.Invariant reserved) {p : Pmm} {addr : W64}
    {b : Nat} (size : W32) (address : addr.toNat = b * 4096) (small : b < 2 ^ 20)
    (inside : b + size.toNat ≤ s.pmm.totalBlocks.toNat) (signed : b + size.toNat ≤ 2 ^ 31)
    (clear : ∀ k, k < size.toNat → s.pmm.used (b + k) = false)
    (total : p.totalBlocks = s.pmm.totalBlocks)
    (bits : ∀ c, p.used c = (s.pmm.used c || decide (b ≤ c ∧ c < b + size.toNat))) :
    Allocator.Invariant reserved ⟨p, ⟨addr, size, s.pmm.words⟩ :: s.live⟩ := by
  have start : (⟨addr, size, s.pmm.words⟩ : Allocation).start = b := by
    simp only [Allocation.start, address]
    omega
  have wasClear : ∀ block, (⟨addr, size, s.pmm.words⟩ : Allocation).Covers block →
      s.pmm.used block = false := by
    rintro block ⟨lower, upper⟩
    rw [start] at lower upper
    have at_ := clear (block - b) (by simp only at upper; omega)
    rwa [show b + (block - b) = block by omega] at at_
  constructor
  · refine List.pairwise_cons.mpr ⟨fun a member block covered other => ?_, inv.apart⟩
    have used := (inv.held a member).marked block other
    rw [wasClear block covered] at used
    contradiction
  · intro a member
    rcases List.mem_cons.mp member with rfl | member
    · refine ⟨by rw [start, address], by rwa [start], by rw [start, total]; exact inside,
        by rw [start]; exact signed, wasClear, ?_⟩
      rintro block ⟨lower, upper⟩
      rw [start] at lower upper
      simp only [bits block, Bool.or_eq_true, decide_eq_true_eq]
      exact .inr ⟨lower, upper⟩
    · have old := inv.held a member
      refine ⟨old.address, old.small, by rw [total]; exact old.inside, old.signed, old.clear, ?_⟩
      intro block covered
      simp only [bits block, old.marked block covered, Bool.true_or]
  · intro block isReserved
    obtain ⟨used, free⟩ := inv.kept block isReserved
    refine ⟨by simp only [bits block, used, Bool.true_or], fun a member covered => ?_⟩
    rcases List.mem_cons.mp member with rfl | member
    · rw [wasClear block covered] at used
      contradiction
    · exact free a member covered

theorem Allocator.Invariant.take_back (inv : s.Invariant reserved) {p : Pmm} {addr : W64}
    {size : W32} (present : s.live.any (Allocation.named addr size) = true)
    (total : p.totalBlocks = s.pmm.totalBlocks)
    (bits : ∀ a, a.addr = addr → a.blocks = size → Held s.pmm a →
      ∀ c, p.used c = (s.pmm.used c && !decide (a.start ≤ c ∧ c < a.start + a.blocks.toNat))) :
    Allocator.Invariant reserved ⟨p, s.live.eraseP (Allocation.named addr size)⟩ := by
  obtain ⟨freed, member, named⟩ := List.any_eq_true.mp present
  obtain ⟨found, left, right, notLeft, isFound, whole, rest⟩ := List.exists_of_eraseP member named
  simp only [Allocation.named, Bool.and_eq_true, beq_iff_eq] at isFound
  have split := inv.apart
  rw [whole, List.pairwise_append, List.pairwise_cons] at split
  obtain ⟨leftApart, ⟨foundRight, rightApart⟩, leftAll⟩ := split
  have heldFound := inv.held found (by rw [whole]; simp)
  have bitsFound := bits found isFound.1 isFound.2 heldFound
  rw [rest]
  constructor
  · refine List.pairwise_append.mpr ⟨leftApart, rightApart, fun a inLeft b inRight => ?_⟩
    exact leftAll a inLeft b (List.mem_cons_of_mem found inRight)
  · intro a inRest
    have old := inv.held a (by
      rw [whole]
      rcases List.mem_append.mp inRest with inLeft | inRight
      · exact List.mem_append_left _ inLeft
      · exact List.mem_append_right _ (List.mem_cons_of_mem found inRight))
    have separate : ∀ block, a.Covers block → ¬ found.Covers block := by
      intro block covered other
      rcases List.mem_append.mp inRest with inLeft | inRight
      · exact leftAll a inLeft found (by simp) block covered other
      · exact foundRight a inRight block other covered
    refine ⟨old.address, old.small, by rw [total]; exact old.inside, old.signed, old.clear, ?_⟩
    intro block covered
    rw [bitsFound block, old.marked block covered, Bool.true_and, Bool.not_eq_true',
      decide_eq_false_iff_not]
    exact separate block covered
  · intro block isReserved
    obtain ⟨used, free⟩ := inv.kept block isReserved
    refine ⟨?_, fun a inRest => free a (List.mem_of_mem_eraseP (rest ▸ inRest))⟩
    rw [bitsFound block, used, Bool.true_and, Bool.not_eq_true', decide_eq_false_iff_not]
    exact free found (by rw [whole]; simp)

theorem ofInt_natCast (b : Nat) : BitVec.ofInt 32 (b : Int) = BitVec.ofNat 32 b := by
  simp

theorem pmmAlloc_cases {p p' : Pmm} {addr : W64} (result : pmmAlloc p = some (addr, p')) :
    ∃ b : Nat, FirstHit (clearBlock p) 0 p.scanned b ∧
      addr = (BitVec.ofNat 32 b * 0x1000#32).setWidth 64 ∧
      p' = pmmUpdateBlocks (pmmMapSet p (toInt32 (BitVec.ofNat 32 b).toNat)) 1#32 := by
  simp only [pmmAlloc] at result
  split at result
  · contradiction
  · split at result
    · contradiction
    · rename_i valid
      rcases first_free_cases p with invalid | ⟨b, found, first⟩
      · rw [invalid] at valid
        exact absurd rfl valid
      · rw [found, ofInt_natCast] at result
        cases result
        exact ⟨b, first, rfl, rfl⟩

theorem several_of_ne {size : W32} (nonzero : size ≠ 0) (single : size ≠ 1) : 1 < size.toNat := by
  have notZero : size.toNat ≠ 0 := fun zero => nonzero (BitVec.eq_of_toNat_eq zero)
  have notOne : size.toNat ≠ 1 := fun one => single (BitVec.eq_of_toNat_eq one)
  omega

theorem pmmAllocSeries_cases {p p' : Pmm} {addr : W64} {size : W32} (nonzero : size ≠ 0)
    (result : pmmAllocSeries p size = some (addr, p')) :
    ∃ b : Nat, (if size = 1 then FirstHit (clearBlock p) 0 p.scanned b
        else FirstFit p size.toNat b) ∧
      addr = (BitVec.ofNat 32 b * 0x1000#32).setWidth 64 ∧
      p' = pmmUpdateBlocks (setSeries (BitVec.ofNat 32 b) size.toNat 0 p) size := by
  simp only [pmmAllocSeries] at result
  split at result
  · contradiction
  · split at result
    · contradiction
    · rename_i valid
      have found : pmmMapFirstFreeSeries p size.toNat = -1 ∨
          ∃ b : Nat, pmmMapFirstFreeSeries p size.toNat = b ∧
            (if size = 1 then FirstHit (clearBlock p) 0 p.scanned b
              else FirstFit p size.toNat b) := by
        by_cases single : size = 1
        · subst single
          simpa [pmmMapFirstFreeSeries] using first_free_cases p
        · simpa only [if_neg single] using first_free_series_cases p size.toNat (several_of_ne nonzero single)
      rcases found with invalid | ⟨b, found, first⟩
      · rw [invalid] at valid
        exact absurd rfl valid
      · rw [found, ofInt_natCast] at result
        cases result
        exact ⟨b, first, rfl, rfl⟩

theorem FirstHit.clear_block {p : Pmm} {b : Nat} (first : FirstHit (clearBlock p) 0 p.scanned b) :
    p.used b = false ∧ b < p.totalBlocks.toNat := by
  obtain ⟨-, below, clear, -⟩ := first
  refine ⟨by simpa [clearBlock] using clear, ?_⟩
  simp only [Pmm.scanned] at below
  omega

theorem FirstHit.small {p : Pmm} {b : Nat} (first : FirstHit (clearBlock p) 0 p.scanned b)
    (low : ∀ c < p.scanned, p.used c = false → ∃ b < 2 ^ 20, b ≤ c ∧ p.used b = false) : b < 2 ^ 20 := by
  obtain ⟨c, small, below, clear⟩ := low b first.2.1 (FirstHit.clear_block first).1
  rcases Nat.lt_or_eq_of_le below with less | rfl
  · have used := first.2.2.2 c (Nat.zero_le c) less
    simp [clearBlock, clear] at used
  · exact small

theorem FirstFit.clearRun {p : Pmm} {size : W32} {b : Nat} (several : 1 < size.toNat)
    (reliable : Reliable p (.allocSeries size)) (fit : FirstFit p size.toNat b) : ClearRun p size.toNat b := by
  have single : size ≠ 1 := by
    rintro rfl
    exact absurd several (by decide)
  simp only [Reliable, if_neg single] at reliable
  obtain ⟨signed, passed⟩ := reliable
  have scanned : p.scanned ≤ p.totalBlocks.toNat := Nat.div_mul_le_self _ 32
  obtain ⟨inside, fits⟩ := fit.clear
  obtain ⟨clear, seen⟩ := (fitsSeries_iff p size.toNat b (by omega)).mp fits
  by_contra misled
  rcases passed b inside clear misled with two | ⟨c, below, run, earlier⟩
  · omega
  · exact fit.not_earlier below (run.fits (by omega) (by have := run.inside; omega)) earlier

theorem step_alloc (inv : s.Invariant reserved) (reliable : Reliable s.pmm .alloc)
    (taken : Call.step s .alloc = some next) : next.Invariant reserved := by
  simp only [Call.step, Option.map_eq_some_iff] at taken
  obtain ⟨⟨addr, p⟩, result, rfl⟩ := taken
  obtain ⟨b, first, rfl, rfl⟩ := pmmAlloc_cases result
  have small := FirstHit.small first reliable
  obtain ⟨clear, below⟩ := FirstHit.clear_block first
  have index : (BitVec.ofNat 32 b).toNat = b := by
    rw [BitVec.toNat_ofNat]
    omega
  refine inv.hand_out 1 (block_address b small) small below (by simp; omega) ?_ rfl ?_
  · intro k less
    have zero : k = 0 := by simpa using less
    rwa [zero]
  · intro c
    rw [index, toInt32_of_small b (by omega), used_pmmUpdateBlocks, used_pmmMapSet]
    congr 1
    rw [decide_eq_decide]
    simp
    omega

theorem step_allocSeries {size : W32} (inv : s.Invariant reserved)
    (reliable : Reliable s.pmm (.allocSeries size))
    (taken : Call.step s (.allocSeries size) = some next) : next.Invariant reserved := by
  simp only [Call.step] at taken
  split at taken
  · contradiction
  · rename_i nonzero
    obtain ⟨⟨addr, p⟩, result, rfl⟩ := Option.map_eq_some_iff.mp taken
    obtain ⟨b, first, rfl, rfl⟩ := pmmAllocSeries_cases nonzero result
    -- a single block and a real series meet the same bounds
    have good : ClearRun s.pmm size.toNat b ∧ b + size.toNat ≤ 2 ^ 31 := by
      by_cases single : size = 1
      · subst single
        simp only [↓reduceIte] at first
        have small : b < 2 ^ 20 := FirstHit.small first (by simpa [Reliable] using reliable)
        obtain ⟨clear, below⟩ := FirstHit.clear_block first
        refine ⟨⟨small, below, fun k less => ?_⟩, by simp; omega⟩
        have zero : k = 0 := by simpa using less
        rwa [zero]
      · rw [if_neg single] at first
        have run := FirstFit.clearRun (several_of_ne nonzero single) reliable first
        simp only [Reliable, if_neg single] at reliable
        exact ⟨run, by have := run.inside; omega⟩
    obtain ⟨⟨small, inside, clear⟩, signed⟩ := good
    have index : (BitVec.ofNat 32 b).toNat = b := by
      rw [BitVec.toNat_ofNat]
      omega
    have series := setSeries_spec (BitVec.ofNat 32 b) 0 size.toNat s.pmm (by simp [index]; omega)
    refine inv.hand_out size (block_address b small) small inside signed clear (by simp) fun c => ?_
    simpa [index] using series c

theorem step_free {addr : W64} (inv : s.Invariant reserved)
    (taken : Call.step s (.free addr) = some next) : next.Invariant reserved := by
  simp only [Call.step] at taken
  split at taken
  · rename_i present
    cases taken
    refine inv.take_back present rfl fun a named one held c => ?_
    have block := address_block a held.address held.small
    rw [named] at block
    simp only [pmmFree, used_pmmUpdateBlocks, block]
    rw [toInt32_of_small _ (by have := held.small; omega), used_pmmMapUnset, one]
    congr 2
    rw [decide_eq_decide]
    simp
    omega
  · contradiction

theorem step_freeSeries {addr : W64} {size : W32} (inv : s.Invariant reserved)
    (taken : Call.step s (.freeSeries addr size) = some next) : next.Invariant reserved := by
  simp only [Call.step] at taken
  split at taken
  · rename_i present
    cases taken
    refine inv.take_back present (by simp [pmmFreeSeries]) fun a named sized held c => ?_
    have block := address_block a held.address held.small
    rw [named] at block
    have bound := held.signed
    rw [sized] at bound ⊢
    have series := unsetSeries_spec (addr.setWidth 32 / 0x1000#32) 0 size.toNat s.pmm
      (by simp only [block, BitVec.ofNat_eq_ofNat, BitVec.toNat_ofNat]; omega)
    simpa [pmmFreeSeries, block] using series c
  · contradiction

theorem step_keeps_total {call : Call} (taken : Call.step s call = some next) :
    next.pmm.totalBlocks = s.pmm.totalBlocks := by
  cases call with
  | alloc =>
    obtain ⟨⟨addr, p⟩, result, rfl⟩ := Option.map_eq_some_iff.mp taken
    obtain ⟨b, -, -, rfl⟩ := pmmAlloc_cases result
    rfl
  | allocSeries size =>
    simp only [Call.step] at taken
    split at taken
    · contradiction
    · rename_i nonzero
      obtain ⟨⟨addr, p⟩, result, rfl⟩ := Option.map_eq_some_iff.mp taken
      obtain ⟨b, -, -, rfl⟩ := pmmAllocSeries_cases nonzero result
      simp
  | free addr =>
    simp only [Call.step] at taken
    split at taken
    · cases taken
      rfl
    · contradiction
  | freeSeries addr size =>
    simp only [Call.step] at taken
    split at taken
    · cases taken
      simp [pmmFreeSeries]
    · contradiction

/-- A call that returns, on a bitmap that does not mislead it. -/
def ReliableStep (s : Allocator) (call : Call) (next : Allocator) : Prop :=
  Reliable s.pmm call ∧ Call.step s call = some next

theorem ReliableStep.invariant {call : Call} (inv : s.Invariant reserved)
    (taken : ReliableStep s call next) : next.Invariant reserved := by
  obtain ⟨reliable, taken⟩ := taken
  cases call with
  | alloc => exact step_alloc inv reliable taken
  | allocSeries size => exact step_allocSeries inv reliable taken
  | free addr => exact step_free inv taken
  | freeSeries addr size => exact step_freeSeries inv taken

theorem Allocator.Sound.clearRun {p : Pmm} {size : W32} {b : Nat} (small : b < 2 ^ 20) (nonzero : size ≠ 0)
    (sound : Allocator.Sound ⟨p, ⟨(BitVec.ofNat 32 b * 0x1000#32).setWidth 64, size, s.pmm.words⟩ :: s.live⟩)
    (total : p.totalBlocks = s.pmm.totalBlocks) : ClearRun s.pmm size.toNat b := by
  have positive : size.toNat ≠ 0 := fun zero => nonzero (BitVec.eq_of_toNat_eq zero)
  have each := sound.2 _ List.mem_cons_self
  simp only [Allocation.Covers, Allocation.start, block_address b small, Nat.mul_div_cancel b (show 0 < 4096 by decide),
    total] at each
  have last := (each (b + (size.toNat - 1)) (by omega)).1
  exact ⟨small, by omega, fun k less => (each (b + k) (by omega)).2⟩

theorem step_sound_iff {call : Call} (inv : s.Invariant reserved) (narrow : s.pmm.totalBlocks.toNat ≤ 2 ^ 20)
    (taken : Call.step s call = some next) : next.Sound ↔ Reliable s.pmm call := by
  have scanned : s.pmm.scanned ≤ s.pmm.totalBlocks.toNat := Nat.div_mul_le_self _ 32
  have single : ∀ c < s.pmm.scanned, s.pmm.used c = false → ∃ b < 2 ^ 20, b ≤ c ∧ s.pmm.used b = false :=
    fun c inside clear => ⟨c, by omega, Nat.le_refl c, clear⟩
  refine ⟨fun sound => ?_, fun reliable => (ReliableStep.invariant inv ⟨reliable, taken⟩).sound⟩
  cases call with
  | alloc => exact single
  | free addr => trivial
  | freeSeries addr size => trivial
  | allocSeries size =>
    by_cases one : size = 1
    · simpa only [Reliable, if_pos one] using single
    simp only [Call.step] at taken
    split at taken
    · contradiction
    rename_i nonzero
    obtain ⟨⟨addr, p⟩, result, rfl⟩ := Option.map_eq_some_iff.mp taken
    obtain ⟨b, fit, rfl, rfl⟩ := pmmAllocSeries_cases nonzero result
    rw [if_neg one] at fit
    have inside := fit.clear.1
    -- the block that was picked is the series that every misleading block comes after
    have run : ClearRun s.pmm size.toNat b := sound.clearRun (by omega) nonzero (by simp)
    have fits := run.inside
    simp only [Reliable, if_neg one]
    refine ⟨by omega, fun c below clear misled => ?_⟩
    rw [or_iff_not_imp_left]
    intro few
    have other : c ≠ b := by
      rintro rfl
      exact misled run
    have hit := (fitsSeries_iff s.pmm size.toNat c (by omega)).mpr ⟨clear, by omega⟩
    exact ⟨b, inside, run, fit.earlier below hit other⟩

theorem boot_invariant (entries : List MemoryPhysicalRegion) (prior : WordBitmap 32) :
    (boot entries prior).Invariant fun block => (initPmm entries prior).used block = true :=
  ⟨List.Pairwise.nil, fun _ member => absurd member List.not_mem_nil,
    fun _ used => ⟨used, fun _ member => absurd member List.not_mem_nil⟩⟩

theorem run_keeps_total {first : Allocator} {calls : List Call} (run : Run ReliableStep first calls s) :
    s.pmm.totalBlocks = first.pmm.totalBlocks := by
  have kept : ∀ s call next, s.pmm.totalBlocks = first.pmm.totalBlocks → ReliableStep s call next →
      next.pmm.totalBlocks = first.pmm.totalBlocks :=
    fun _ _ _ same taken => (step_keeps_total taken.2).trans same
  exact run.invariant kept rfl

theorem run_invariant {entries : List MemoryPhysicalRegion} {prior : WordBitmap 32}
    {calls : List Call} (run : Run ReliableStep (boot entries prior) calls s) :
    s.Invariant fun block => (initPmm entries prior).used block = true :=
  run.invariant (fun _ _ _ inv taken => taken.invariant inv) (boot_invariant entries prior)

end

theorem live_allocations_sound (entries : List MemoryPhysicalRegion) (prior : WordBitmap 32)
    (calls : List Call) (s : Allocator) (run : Run ReliableStep (boot entries prior) calls s) :
    s.Sound ∧ ∀ call next, s.pmm.totalBlocks.toNat ≤ 2 ^ 20 → Call.step s call = some next →
      (next.Sound ↔ Reliable s.pmm call) :=
  ⟨(run_invariant run).sound, fun _ _ narrow taken => step_sound_iff (run_invariant run) narrow taken⟩

/-- A page at zero and a mebibyte at two: 767 blocks, none of them reserved. -/
def twoUsableRegions : List MemoryPhysicalRegion :=
  [⟨0, 0x1000, 0x1000, .usable⟩, ⟨0x200000, 0x100000, 0x300000, .usable⟩]

theorem two_regions_boot :
    ((boot twoUsableRegions fun _ => 0).pmm.scanned = 736 ∧
      blockAfterMap (boot twoUsableRegions fun _ => 0).pmm = 512 ∧
      (boot twoUsableRegions fun _ => 0).pmm.totalBlocks.toNat = 767 ∧
      (boot twoUsableRegions fun _ => 0).pmm.usedBlocks = 0 ∧
      (boot twoUsableRegions fun _ => 0).pmm.usableBlocks = 257) ∧
    ((boot twoUsableRegions fun _ => 0).pmm.used 1 = false ∧
      (boot twoUsableRegions fun _ => 0).pmm.used 2 = false ∧
      (boot twoUsableRegions fun _ => 0).pmm.used 0 = true) ∧
    pmmMapFirstFree (boot twoUsableRegions fun _ => 0).pmm = (1 : Nat) ∧
    pmmMapFirstFreeSeries (boot twoUsableRegions fun _ => 0).pmm (2 : W32).toNat = (1 : Nat) ∧
    (pmmAlloc (boot twoUsableRegions fun _ => 0).pmm).isSome = true ∧
    (pmmAllocSeries (boot twoUsableRegions fun _ => 0).pmm 2).map (·.1) = some 0x1000 := by
  decide +kernel

theorem reliable_of_first {p : Pmm} {size : W32} {b : Nat} (first : ∀ c < b, p.used c = true)
    (run : ClearRun p size.toNat b) (single : size ≠ 1)
    (signed : p.totalBlocks.toNat + size.toNat < 2 ^ 31) (order : p.scanned ≤ blockAfterMap p * 32)
    (inside : b < p.scanned) : Reliable p (.allocSeries size) := by
  simp only [Reliable, if_neg single]
  refine ⟨signed, fun c below clear misled => .inr ⟨b, inside, run, .inl ⟨?_, .inr (by omega)⟩⟩⟩
  by_contra before
  rcases Nat.lt_or_eq_of_le (Nat.not_lt.mp before) with less | rfl
  · rw [first c less] at clear
    contradiction
  · exact misled run

theorem two_regions_reliable : Reliable (boot twoUsableRegions fun _ => 0).pmm (.allocSeries 2) := by
  rcases two_regions_boot with ⟨⟨scanned, after, total, -⟩, ⟨clear, clear', used⟩, -⟩
  have two : (2 : W32).toNat = 2 := rfl
  refine reliable_of_first (b := 1) ?_ ⟨by decide, by omega, ?_⟩ (by decide) (by omega) (by omega) (by omega)
  · intro c less
    obtain rfl : c = 0 := by omega
    exact used
  · intro k less
    have cases : k = 0 ∨ k = 1 := by omega
    rcases cases with rfl | rfl
    · exact clear
    · exact clear'

theorem two_regions_second :
    (Call.step (boot twoUsableRegions fun _ => 0) (.allocSeries 2)).map (fun s =>
      ((s.pmm.scanned, blockAfterMap s.pmm, s.pmm.totalBlocks.toNat),
        (List.range 6).map s.pmm.used,
        (Call.step s (.allocSeries 3)).map fun s => s.live.map fun a => (a.addr, a.blocks))) =
      some ((736, 512, 767), [true, true, true, false, false, false], some [(0x3000, 3), (0x1000, 2)]) := by
  decide +kernel

theorem live_allocations_sound_two_regions :
    ∃ s : Allocator, s.live.map (fun a => (a.addr, a.blocks)) = [(0x3000, 3), (0x1000, 2)] ∧ s.Sound := by
  obtain ⟨s1, first, facts⟩ := Option.map_eq_some_iff.mp two_regions_second
  simp only [Prod.mk.injEq, List.range_succ, List.range_zero, List.nil_append, List.cons_append, List.map_cons,
    List.map_nil, List.cons.injEq] at facts
  obtain ⟨⟨scanned, after, total⟩, ⟨used0, used1, used2, clear3, clear4, clear5, -⟩, result⟩ := facts
  obtain ⟨s2, second, live⟩ := Option.map_eq_some_iff.mp result
  have three : (3 : W32).toNat = 3 := rfl
  have reliable : Reliable s1.pmm (.allocSeries 3) := by
    refine reliable_of_first (b := 3) ?_ ⟨by decide, by omega, ?_⟩ (by decide) (by omega) (by omega) (by omega)
    · intro c less
      have cases : c = 0 ∨ c = 1 ∨ c = 2 := by omega
      rcases cases with rfl | rfl | rfl <;> assumption
    · intro k less
      have cases : k = 0 ∨ k = 1 ∨ k = 2 := by omega
      rcases cases with rfl | rfl | rfl <;> assumption
  exact ⟨s2, live, (live_allocations_sound twoUsableRegions (fun _ => 0) [.allocSeries 2, .allocSeries 3] s2
    (.cons ⟨two_regions_reliable, first⟩ (.cons ⟨reliable, second⟩ (.nil s2)))).1⟩

/-- Seven blocks, then two, the seven freed, then eight: the last answer covers block 8, which
    the second allocation still holds. Its bit is bit 8 of a word, which `pmm_map_get` drops. -/
theorem series_allocations_overlap :
    ∃ s, Run (fun s call next => Call.step s call = some next)
        (boot twoUsableRegions fun _ => 0)
        [.allocSeries 7, .allocSeries 2, .freeSeries 0x1000 7, .allocSeries 8] s ∧
      ¬ s.Sound := by
  have result : ([.allocSeries 7, .allocSeries 2, .freeSeries 0x1000 7, .allocSeries 8].foldlM
      Call.step (boot twoUsableRegions fun _ => 0)).map
        (fun s => s.live.map fun a => (a.addr, a.blocks)) =
      some [(0x1000, 8), (0x8000, 2)] := by decide +kernel
  obtain ⟨s, taken, live⟩ := Option.map_eq_some_iff.mp result
  refine ⟨s, Run.of_foldlM taken, fun sound => ?_⟩
  obtain ⟨last, earlier, listed, lastIs, rest⟩ := List.map_eq_cons_iff.mp live
  obtain ⟨second, others, rfl, secondIs, -⟩ := List.map_eq_cons_iff.mp rest
  obtain ⟨apart, -⟩ := sound
  rw [listed] at apart
  simp only [Prod.mk.injEq] at lastIs secondIs
  have separate := (List.pairwise_cons.mp apart).1 second (by simp) 8
  simp only [Allocation.Covers, Allocation.start, lastIs, secondIs] at separate
  exact separate (by decide) (by decide)

end Neutrino.Physical
