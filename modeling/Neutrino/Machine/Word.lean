import Mathlib.Algebra.Order.Ring.Int

namespace Neutrino

abbrev W32 := BitVec 32
abbrev W64 := BitVec 64

/-- The conversion of an integer value to the source's `int`. -/
def toInt32 (value : Int) : Int := value.bmod (2 ^ 32)

theorem toInt32_of_small (n : Nat) (small : n < 2 ^ 31) : toInt32 n = n := by
  simp only [toInt32, Int.bmod_def]
  omega

theorem toInt32_step (value : Int) : toInt32 (toInt32 value + 1) = toInt32 (value + 1) := Int.bmod_add_bmod ..

theorem toInt32_le (n : Nat) : toInt32 n ≤ n ∧ toInt32 n < 2 ^ 31 := by
  simp only [toInt32, Int.bmod_def]
  omega

def memvOffset : W64 := 0xffff800000000000#64
def permOffset : W64 := 0xffff880000000000#64
def heapOffset : W64 := 0xfffffe0000000000#64

def getMemAddress (address : W64) : W64 := address + memvOffset
def getRmemAddress (address : W64) : W64 := address - memvOffset
def getPermAddress (address : W64) : W64 := address + permOffset

@[simp]
theorem getRmemAddress_getMemAddress (address : W64) :
    getRmemAddress (getMemAddress address) = address := by
  simp only [getRmemAddress, getMemAddress, BitVec.add_sub_cancel]

end Neutrino
