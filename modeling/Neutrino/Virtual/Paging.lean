import Mathlib.Data.Nat.Bitwise
import Neutrino.Machine.Word

namespace Neutrino.Virtual

abbrev Index := BitVec 9
abbrev Frame := BitVec 40

abbrev PageNumber := BitVec 52

def pageSize : Nat := 0x1000
def recurseActive : Index := 510#9
def recurseOther : Index := 509#9
def recursePml4Other : W64 := 0xfffffe8000000000#64

def presentBitOffset : W64 := 0b1#64
def writableBitOffset : W64 := 0b10#64
def userspaceBitOffset : W64 := 0b100#64
def cacheDisableBitOffset : W64 := 0b1000#64
def hugeBitOffset : W64 := 0b10000000#64
def noExecuteBitOffset : W64 := 0x8000000000000000#64
def addressMask : W64 := 0xfffffffffffff000#64

def isPresent (x : W64) : Bool := (x &&& presentBitOffset) != 0#64
def isHuge (x : W64) : Bool := ((x &&& hugeBitOffset) >>> 7) != 0#64
def getPhysicalAddress (x : W64) : W64 := x &&& ~~~0xfff#64

def getPl4Index (x : W64) : Index := ((x &&& 0xff8000000000#64) >>> 39).setWidth 9
def getDptIndex (x : W64) : Index := ((x &&& 0x007fc0000000#64) >>> 30).setWidth 9
def getDirIndex (x : W64) : Index := ((x &&& 0x00003fe00000#64) >>> 21).setWidth 9
def getTabIndex (x : W64) : Index := ((x &&& 0x0000001ff000#64) >>> 12).setWidth 9
def getPageOffset (x : W64) : W64 := x &&& 0x000000000fff#64

structure PagingPath where
  pl4 : Index
  dpt : Index
  pd : Index
  pt : Index
  deriving DecidableEq, Repr

def getPagingPath (virtAddr : W64) : PagingPath :=
  ⟨getPl4Index virtAddr, getDptIndex virtAddr, getDirIndex virtAddr, getTabIndex virtAddr⟩

/-- The address of `table->entries[entry]`. -/
def entryAddress (table entry : W64) : W64 := table + 8#64 * entry

def tableAddress (gate p3 p2 p1 : Index) : W64 :=
  (0xffff#64 <<< 48) ||| (gate.setWidth 64 <<< 39) ||| (p3.setWidth 64 <<< 30) |||
    (p2.setWidth 64 <<< 21) ||| (p1.setWidth 64 <<< 12)

def getRecursiveAddress (gate p3 p2 p1 : Index) (offset : W64) : W64 :=
  entryAddress (tableAddress gate p3 p2 p1) offset

def signExtend (v : W64) (sb : Nat) : W64 :=
  v ||| if v &&& (1#64 <<< sb) ≠ 0#64 then ~~~((1#64 <<< sb) - 1#64) else 0#64

def getAddress (path : PagingPath) (page : W64) : W64 :=
  signExtend (((path.pl4.setWidth 64 <<< 39) ||| (path.dpt.setWidth 64 <<< 30) |||
    (path.pd.setWidth 64 <<< 21) ||| (path.pt.setWidth 64 <<< 12)) + page) 47

structure PageProperties where
  writable : Bool
  user : Bool
  cacheDisable : Bool
  deriving DecidableEq, Repr

def pageKernelWrite : PageProperties := ⟨true, false, false⟩

def pageSetBit (page offset : W64) : W64 := page ||| offset
def pageClearBit (page offset : W64) : W64 := page &&& ~~~offset

/-- The flags that `page_create` and `page_pdpt_huge` share. -/
def pageFlags (pt : W64) (prop : PageProperties) : W64 :=
  let pt := if prop.writable then pageSetBit pt writableBitOffset else pt
  let pt := if prop.user then pageSetBit pt userspaceBitOffset else pt
  if prop.cacheDisable then pageSetBit pt cacheDisableBitOffset else pt

def pageCreate (addr : W64) (prop : PageProperties) : W64 :=
  let pt := pageFlags (addr &&& addressMask) prop
  let pt := pageSetBit pt presentBitOffset
  pageClearBit pt noExecuteBitOffset

def pagePdptHuge (addr : W64) (prop : PageProperties) : W64 :=
  let pt := pageFlags (addr &&& 0xffffffffc0000000#64) prop
  let pt := pageSetBit pt hugeBitOffset
  let pt := pageClearBit pt noExecuteBitOffset
  pageSetBit pt presentBitOffset

def pageSelf (table : W64) : W64 := pageCreate (getRmemAddress table) pageKernelWrite

-- What the processor reads in entries and addresses.

def frameOf (x : W64) : Frame := x.extractLsb' 12 40

def frameAddress (f : Frame) : W64 := f.setWidth 64 <<< 12

def pageNumber (addr : W64) : PageNumber := addr.extractLsb' 12 52

def wordIndex (addr : W64) : Index := addr.extractLsb' 3 9

def indices (q : PageNumber) : List Index :=
  [q.extractLsb' 27 9, q.extractLsb' 18 9, q.extractLsb' 9 9, q.extractLsb' 0 9]

def canonical (q : PageNumber) : Bool :=
  q.extractLsb' 35 17 == 0#17 || q.extractLsb' 35 17 == BitVec.allOnes 17

/-- The frame behind a page, from its entry and the indices that a large page leaves over. -/
def pageFrame (entry : W64) : List Index → Frame
  | [pt] => (frameOf entry).extractLsb' 9 31 ++ pt
  | [pd, pt] => (frameOf entry).extractLsb' 18 22 ++ (pd ++ pt)
  | _ => frameOf entry

theorem isPresent_eq (x : W64) : isPresent x = x.getLsbD 0 := by
  have bit : presentBitOffset = BitVec.twoPow 64 0 := by decide
  rw [isPresent, bit, BitVec.and_twoPow]
  cases x.getLsbD 0 <;> rfl

theorem isHuge_eq (x : W64) : isHuge x = x.getLsbD 7 := by
  have bit : hugeBitOffset = BitVec.twoPow 64 7 := by decide
  rw [isHuge, bit, BitVec.and_twoPow]
  cases x.getLsbD 7 <;> rfl

theorem getLsbD_pageFlags (pt : W64) (prop : PageProperties) (k : Nat) (high : 4 ≤ k) :
    (pageFlags pt prop).getLsbD k = pt.getLsbD k := by
  have bits : ∀ j < 4, (BitVec.twoPow 64 j).getLsbD k = false := by
    intro j low
    rw [BitVec.getLsbD_twoPow]
    simp
    omega
  have writableBit : writableBitOffset = BitVec.twoPow 64 1 := by decide
  have userBit : userspaceBitOffset = BitVec.twoPow 64 2 := by decide
  have cacheBit : cacheDisableBitOffset = BitVec.twoPow 64 3 := by decide
  obtain ⟨writable, user, cacheDisable⟩ := prop
  cases writable <;> cases user <;> cases cacheDisable <;>
    simp [pageFlags, pageSetBit, writableBit, userBit, cacheBit, bits]

theorem getLsbD_pageCreate (addr : W64) (prop : PageProperties) (k : Nat) (high : 4 ≤ k)
    (low : k < 63) : (pageCreate addr prop).getLsbD k = (decide (12 ≤ k) && addr.getLsbD k) := by
  have presentBit : presentBitOffset = BitVec.twoPow 64 0 := by decide
  have executeBit : noExecuteBitOffset = BitVec.twoPow 64 63 := by decide
  have mask : addressMask = ~~~(BitVec.setWidth 64 (BitVec.allOnes 12)) := by decide
  simp only [pageCreate, pageSetBit, pageClearBit, BitVec.getLsbD_and, BitVec.getLsbD_or,
    getLsbD_pageFlags _ _ _ high, presentBit, executeBit, mask, BitVec.getLsbD_not, BitVec.getLsbD_twoPow,
    BitVec.getLsbD_setWidth, BitVec.getLsbD_allOnes]
  have inside : k < 64 := by omega
  have first : 0 ≠ k := by omega
  have last : 63 ≠ k := by omega
  by_cases address : 12 ≤ k
  · have offset : ¬ k < 12 := by omega
    simp [inside, first, last, address, offset]
  · have offset : k < 12 := by omega
    simp [inside, first, last, address, offset]

@[simp] theorem isPresent_pageCreate (addr : W64) (prop : PageProperties) :
    isPresent (pageCreate addr prop) = true := by
  rw [isPresent_eq]
  simp [pageCreate, pageSetBit, pageClearBit, presentBitOffset, noExecuteBitOffset]

@[simp] theorem isHuge_pageCreate (addr : W64) (prop : PageProperties) :
    isHuge (pageCreate addr prop) = false := by
  rw [isHuge_eq, getLsbD_pageCreate addr prop 7 (by decide) (by decide)]
  simp

@[simp] theorem frameOf_pageCreate (addr : W64) (prop : PageProperties) :
    frameOf (pageCreate addr prop) = frameOf addr := by
  apply BitVec.eq_of_getLsbD_eq
  intro i bound
  simp only [frameOf, BitVec.getLsbD_extractLsb', bound, decide_true, Bool.true_and]
  rw [getLsbD_pageCreate addr prop (12 + i) (by omega) (by omega)]
  simp

@[simp] theorem isPresent_cleared (e : W64) :
    isPresent (pageClearBit e presentBitOffset) = false := by
  rw [isPresent_eq]
  simp [pageClearBit, presentBitOffset]

@[simp] theorem isPresent_zero : isPresent 0#64 = false := rfl

theorem frameAddress_toNat (f : Frame) : (frameAddress f).toNat = f.toNat * 4096 := by
  have bound := f.isLt
  simp only [frameAddress, BitVec.toNat_shiftLeft, BitVec.toNat_setWidth, Nat.shiftLeft_eq]
  omega

theorem frameOf_toNat (x : W64) : (frameOf x).toNat = x.toNat / 4096 % 2 ^ 40 := by
  simp only [frameOf, BitVec.extractLsb'_toNat, Nat.shiftRight_eq_div_pow]

@[simp] theorem frameOf_frameAddress (f : Frame) : frameOf (frameAddress f) = f := by
  have bound := f.isLt
  apply BitVec.eq_of_toNat_eq
  rw [frameOf_toNat, frameAddress_toNat]
  omega

theorem getPhysicalAddress_toNat (x : W64) :
    (getPhysicalAddress x).toNat = x.toNat / 4096 * 4096 := by
  have mask : ~~~0xfff#64 = ~~~(BitVec.setWidth 64 (BitVec.allOnes 12)) := by decide
  have shifted : getPhysicalAddress x = x >>> 12 <<< 12 := by
    apply BitVec.eq_of_getLsbD_eq
    intro i bound
    simp only [getPhysicalAddress, mask, BitVec.getLsbD_and, BitVec.getLsbD_not,
      BitVec.getLsbD_setWidth, BitVec.getLsbD_allOnes, BitVec.getLsbD_shiftLeft,
      BitVec.getLsbD_ushiftRight, bound]
    by_cases offset : i < 12
    · simp [offset]
    · have back : 12 + (i - 12) = i := by omega
      simp [offset, back]
  rw [shifted, BitVec.toNat_shiftLeft, BitVec.toNat_ushiftRight, Nat.shiftLeft_eq,
    Nat.shiftRight_eq_div_pow]
  have bound := x.isLt
  omega

theorem frameOf_getPhysicalAddress (x : W64) : frameOf (getPhysicalAddress x) = frameOf x := by
  apply BitVec.eq_of_toNat_eq
  rw [frameOf_toNat, frameOf_toNat, getPhysicalAddress_toNat]
  omega

theorem getPhysicalAddress_pageCreate (f : Frame) (prop : PageProperties) :
    getPhysicalAddress (pageCreate (frameAddress f) prop) = frameAddress f := by
  have bound := f.isLt
  have top : (pageCreate (frameAddress f) prop).toNat < 2 ^ 52 := by
    apply Nat.lt_pow_two_of_testBit
    intro k high
    rw [BitVec.testBit_toNat]
    by_cases last : k < 63
    · rw [getLsbD_pageCreate _ _ _ (by omega) last]
      have small : (frameAddress f).toNat < 2 ^ k := by
        rw [frameAddress_toNat]
        have wide : 2 ^ 52 ≤ 2 ^ k := Nat.pow_le_pow_right (by decide) high
        omega
      rw [← BitVec.testBit_toNat, Nat.testBit_lt_two_pow small, Bool.and_false]
    · by_cases past : 64 ≤ k
      · exact BitVec.getLsbD_of_ge _ _ past
      · have exact : k = 63 := by omega
        subst exact
        simp [pageCreate, pageClearBit, noExecuteBitOffset]
  apply BitVec.eq_of_toNat_eq
  have frame := congrArg BitVec.toNat (frameOf_pageCreate (frameAddress f) prop)
  rw [frameOf_frameAddress, frameOf_toNat] at frame
  rw [getPhysicalAddress_toNat, frameAddress_toNat]
  omega

theorem field_eq (x mask : W64) (k : Nat) (set : ∀ i < 9, mask.getLsbD (k + i) = true) :
    ((x &&& mask) >>> k).setWidth 9 = x.extractLsb' k 9 := by
  ext i bound
  simp only [BitVec.getElem_setWidth, BitVec.getLsbD_ushiftRight, BitVec.getLsbD_and,
    BitVec.getElem_extractLsb', set i bound, Bool.and_true]

theorem getPl4Index_eq (x : W64) : getPl4Index x = x.extractLsb' 39 9 :=
  field_eq x _ 39 (by decide)

theorem getDptIndex_eq (x : W64) : getDptIndex x = x.extractLsb' 30 9 :=
  field_eq x _ 30 (by decide)

theorem getDirIndex_eq (x : W64) : getDirIndex x = x.extractLsb' 21 9 :=
  field_eq x _ 21 (by decide)

theorem getTabIndex_eq (x : W64) : getTabIndex x = x.extractLsb' 12 9 :=
  field_eq x _ 12 (by decide)

theorem indices_pageNumber (x : W64) : indices (pageNumber x) =
    [getPl4Index x, getDptIndex x, getDirIndex x, getTabIndex x] := by
  simp only [indices, pageNumber, getPl4Index_eq, getDptIndex_eq, getDirIndex_eq, getTabIndex_eq,
    List.cons.injEq, and_true]
  refine ⟨?_, ?_, ?_, ?_⟩ <;>
  · apply BitVec.eq_of_toNat_eq
    simp only [BitVec.extractLsb'_toNat, Nat.shiftRight_eq_div_pow]
    omega

theorem pageNumber_toNat (x : W64) : (pageNumber x).toNat = x.toNat / 4096 := by
  have bound := x.isLt
  simp only [pageNumber, BitVec.extractLsb'_toNat, Nat.shiftRight_eq_div_pow]
  omega

theorem getPageOffset_toNat (v : W64) : (getPageOffset v).toNat = v.toNat % 4096 := by
  have mask : (0xfff#64).toNat = 2 ^ 12 - 1 := rfl
  rw [getPageOffset, BitVec.toNat_and, mask, Nat.and_two_pow_sub_one_eq_mod]

theorem entryAddress_toNat {table : W64} (aligned : table.toNat % 4096 = 0) (i : Index) :
    (entryAddress table (i.setWidth 64)).toNat = table.toNat + 8 * i.toNat := by
  have low := i.isLt
  have bound := table.isLt
  simp only [entryAddress, BitVec.toNat_add, BitVec.toNat_mul, BitVec.toNat_setWidth,
    BitVec.toNat_ofNat]
  omega

theorem pageNumber_entryAddress {table : W64} (aligned : table.toNat % 4096 = 0) (i : Index) :
    pageNumber (entryAddress table (i.setWidth 64)) = pageNumber table := by
  have low := i.isLt
  apply BitVec.eq_of_toNat_eq
  rw [pageNumber_toNat, pageNumber_toNat, entryAddress_toNat aligned]
  omega

theorem wordIndex_entryAddress {table : W64} (aligned : table.toNat % 4096 = 0) (i : Index) :
    wordIndex (entryAddress table (i.setWidth 64)) = i := by
  have low := i.isLt
  apply BitVec.eq_of_toNat_eq
  simp only [wordIndex, BitVec.extractLsb'_toNat, Nat.shiftRight_eq_div_pow,
    entryAddress_toNat aligned]
  omega

theorem or_eq_add (high low k : Nat) (bound : low < 2 ^ k) :
    (high * 2 ^ k) ||| low = high * 2 ^ k + low := by
  rw [← Nat.shiftLeft_eq, Nat.shiftLeft_add_eq_or_of_lt bound]

theorem shifted_toNat (x : Index) (k : Nat) (bound : k ≤ 55) :
    (x.setWidth 64 <<< k).toNat = x.toNat * 2 ^ k := by
  have small : x.toNat * 2 ^ k < 2 ^ 64 := by
    calc x.toNat * 2 ^ k < 2 ^ 9 * 2 ^ k := Nat.mul_lt_mul_of_pos_right x.isLt (Nat.two_pow_pos k)
      _ = 2 ^ (9 + k) := (Nat.pow_add 2 9 k).symm
      _ ≤ 2 ^ 64 := Nat.pow_le_pow_right (by decide) (by omega)
  have wide : x.toNat < 2 ^ 64 := Nat.lt_trans x.isLt (by decide)
  rw [BitVec.toNat_shiftLeft, BitVec.toNat_setWidth, Nat.mod_eq_of_lt wide, Nat.shiftLeft_eq,
    Nat.mod_eq_of_lt small]

theorem tableAddress_toNat (gate p3 p2 p1 : Index) : (tableAddress gate p3 p2 p1).toNat =
    (((65535 * 2 ^ 9 + gate.toNat) * 2 ^ 9 + p3.toNat) * 2 ^ 9 + p2.toNat) * 2 ^ 21 +
      p1.toNat * 2 ^ 12 := by
  have gateBound := gate.isLt
  have bound3 := p3.isLt
  have bound2 := p2.isLt
  have bound1 := p1.isLt
  have top : (0xffff#64 <<< 48).toNat = 65535 * 2 ^ 48 := by decide
  have join : ∀ high low k : Nat, high * 2 ^ (k + 9) + low * 2 ^ k = (high * 2 ^ 9 + low) * 2 ^ k := by
    intro high low k
    rw [Nat.add_mul, Nat.mul_assoc, ← Nat.pow_add, Nat.add_comm 9 k]
  simp only [tableAddress, BitVec.toNat_or, shifted_toNat, top, Nat.reduceLeDiff]
  rw [or_eq_add _ _ 48 (by omega), join _ _ 39, or_eq_add _ _ 39 (by omega), join _ _ 30,
    or_eq_add _ _ 30 (by omega), join _ _ 21, or_eq_add _ _ 21 (by omega)]

theorem tableAddress_aligned (gate p3 p2 p1 : Index) :
    (tableAddress gate p3 p2 p1).toNat % 4096 = 0 := by
  rw [tableAddress_toNat]
  omega

theorem indices_tableAddress (gate p3 p2 p1 : Index) :
    indices (pageNumber (tableAddress gate p3 p2 p1)) = [gate, p3, p2, p1] := by
  have gateBound := gate.isLt
  have bound3 := p3.isLt
  have bound2 := p2.isLt
  have bound1 := p1.isLt
  simp only [indices, List.cons.injEq, and_true]
  refine ⟨?_, ?_, ?_, ?_⟩ <;>
  · apply BitVec.eq_of_toNat_eq
    simp only [BitVec.extractLsb'_toNat, Nat.shiftRight_eq_div_pow, pageNumber_toNat,
      tableAddress_toNat]
    omega

theorem canonical_iff (q : PageNumber) :
    canonical q = true ↔ q.toNat < 2 ^ 35 ∨ 2 ^ 52 - 2 ^ 35 ≤ q.toNat := by
  have bound := q.isLt
  have low : q.extractLsb' 35 17 = 0#17 ↔ q.toNat < 2 ^ 35 := by
    rw [← BitVec.toNat_inj]
    simp only [BitVec.extractLsb'_toNat, Nat.shiftRight_eq_div_pow, BitVec.toNat_ofNat]
    omega
  have high : q.extractLsb' 35 17 = BitVec.allOnes 17 ↔ 2 ^ 52 - 2 ^ 35 ≤ q.toNat := by
    rw [← BitVec.toNat_inj]
    simp only [BitVec.extractLsb'_toNat, Nat.shiftRight_eq_div_pow, BitVec.toNat_allOnes]
    omega
  simp only [canonical, Bool.or_eq_true, beq_iff_eq, low, high]

theorem canonical_tableAddress (gate p3 p2 p1 : Index) (upper : 256 ≤ gate.toNat) :
    canonical (pageNumber (tableAddress gate p3 p2 p1)) = true := by
  have gateBound := gate.isLt
  rw [canonical_iff, pageNumber_toNat, tableAddress_toNat]
  omega

theorem indices_injective {q q' : PageNumber} (here : canonical q = true) (there : canonical q' = true)
    (same : indices q = indices q') : q = q' := by
  rw [canonical_iff] at here there
  have bound := q.isLt
  have bound' := q'.isLt
  simp only [indices, List.cons.injEq, and_true, ← BitVec.toNat_inj, BitVec.extractLsb'_toNat,
    Nat.shiftRight_eq_div_pow] at same
  apply BitVec.eq_of_toNat_eq
  omega

section Windows

variable {base : W64} {f : Frame}

variable (high : 2 ^ 64 - 2 ^ 47 ≤ base.toNat) (slot : base.toNat % 2 ^ 39 = 0) (small : f.toNat < 2 ^ 27)
include high slot small

theorem window_toNat : (frameAddress f + base).toNat = f.toNat * 4096 + base.toNat := by
  have bound := base.isLt
  rw [BitVec.toNat_add, frameAddress_toNat]
  omega

theorem window_aligned : (frameAddress f + base).toNat % 4096 = 0 := by
  rw [window_toNat high slot small]
  omega

theorem canonical_window : canonical (pageNumber (frameAddress f + base)) = true := by
  rw [canonical_iff, pageNumber_toNat, window_toNat high slot small]
  omega

theorem indices_window : indices (pageNumber (frameAddress f + base)) =
      [base.extractLsb' 39 9, f.extractLsb' 18 9, f.extractLsb' 9 9, f.extractLsb' 0 9] := by
  have bound := base.isLt
  simp only [indices, List.cons.injEq, and_true]
  refine ⟨?_, ?_, ?_, ?_⟩ <;>
  · apply BitVec.eq_of_toNat_eq
    simp only [BitVec.extractLsb'_toNat, Nat.shiftRight_eq_div_pow, pageNumber_toNat,
      window_toNat high slot small]
    omega

end Windows

theorem frame_parts (f : Frame) :
    f.extractLsb' 18 22 ++ (f.extractLsb' 9 9 ++ f.extractLsb' 0 9) = f := by
  apply BitVec.eq_of_getLsbD_eq
  intro i bound
  simp only [BitVec.getLsbD_append, BitVec.getLsbD_extractLsb']
  by_cases first : i < 9
  · simp [first, show i < 9 + 9 by omega]
  · by_cases second : i < 18
    · simp [first, second, show i - 9 < 9 by omega,
        show 9 + (i - 9) = i by omega]
    · simp [show ¬ i < 9 + 9 by omega, show i - (9 + 9) < 22 by omega,
        show 18 + (i - (9 + 9)) = i by omega]

end Neutrino.Virtual
