import Neutrino.Machine.Word

namespace Neutrino

inductive SyscallResult
  | success
  | invalid
  | failure
  | unauthorized
  deriving DecidableEq, Repr

section Memory

-- The memory is given by what one load and one store do, so that each caller can say what it counts.
variable {m : Type → Type} [Monad m] (load : W64 → m (BitVec 8)) (store : W64 → BitVec 8 → m Unit)

def memorySet (dest : W64) (val : BitVec 8) (len : W32) : m Unit :=
  (List.range len.toNat).forM fun i => store (dest + BitVec.ofNat 64 i) val

/-- `nbytes` is the source's `int`: nothing is copied when it is negative. -/
def memoryCopy (source dest : W64) (nbytes : Int) : m Unit :=
  (List.range nbytes.toNat).forM fun i => do
    let byte ← load (source + BitVec.ofNat 64 i)
    store (dest + BitVec.ofNat 64 i) byte

theorem memoryCopy_toNat (source dest : W64) (nbytes : Int) :
    memoryCopy load store source dest nbytes = memoryCopy load store source dest (nbytes.toNat : Int) := by
  simp only [memoryCopy, Int.toNat_natCast]

theorem memoryCopy_succ [LawfulMonad m] (source dest : W64) (count : Nat) :
    memoryCopy load store source dest ((count + 1 : Nat) : Int) = (do
      memoryCopy load store source dest count
      let byte ← load (source + BitVec.ofNat 64 count)
      store (dest + BitVec.ofNat 64 count) byte) := by
  simp only [memoryCopy, Int.toNat_natCast, List.range_succ, List.forM_eq_forM, List.forM_append, List.forM_cons,
    List.forM_nil, bind_pure_unit]

end Memory

end Neutrino
