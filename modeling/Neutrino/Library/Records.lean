import Neutrino.Library.Bytes

namespace Library

/-- The byte `x` is one of the `n` bytes from `a` on. -/
def Within (a : BitVec 64) (n : Nat) (x : BitVec 64) : Prop := (x - a).toNat < n

instance (a : BitVec 64) (n : Nat) (x : BitVec 64) : Decidable (Within a n x) := inferInstanceAs (Decidable (_ < _))

/-- The word of `w` bits at an address, least significant byte first. -/
def fetch (w : Nat) (mem : ByteMemory) (a : BitVec 64) : BitVec w := BitVec.ofNat w (ofLe (load mem a (w / 8)))

def put {w : Nat} (mem : ByteMemory) (a : BitVec 64) (v : BitVec w) : ByteMemory := store mem a (le (w / 8) v.toNat)

section Words

variable {mem mem' : ByteMemory} {a b x : BitVec 64} {w w' n m : Nat} {v : BitVec w}

theorem put_other (outside : ¬ Within a (w / 8) x) : put mem a v x = mem x := by
  have past : (le (w / 8) v.toNat)[(x - a).toNat]? = none := by
    apply List.getElem?_eq_none
    rw [le_length]
    exact Nat.le_of_not_lt outside
  rw [put, store, past, Option.getD_none]

theorem fetch_congr (small : w / 8 ≤ 2 ^ 64) (same : ∀ x, Within a (w / 8) x → mem' x = mem x) :
    fetch w mem' a = fetch w mem a := by
  have bytes : load mem' a (w / 8) = load mem a (w / 8) := by
    apply List.map_congr_left
    intro k member
    apply same
    have below := List.mem_range.mp member
    rw [Within, BitVec.add_comm, BitVec.add_sub_cancel, BitVec.toNat_ofNat, Nat.mod_eq_of_lt (by omega)]
    exact below
  rw [fetch, fetch, bytes]

theorem fetch_put (whole : w % 8 = 0) (small : w / 8 ≤ 2 ^ 64) : fetch w (put mem a v) a = v := by
  have length : (le (w / 8) v.toNat).length ≤ 2 ^ 64 := by
    rw [le_length]
    exact small
  have bytes := @load_store_self mem a (le (w / 8) v.toNat) length
  rw [le_length] at bytes
  have width : 256 ^ (w / 8) = 2 ^ w := by
    have base : (256 : Nat) = 2 ^ 8 := rfl
    rw [base, ← Nat.pow_mul, Nat.mul_div_cancel' (Nat.dvd_of_mod_eq_zero whole)]
  apply BitVec.eq_of_toNat_eq
  rw [fetch, put, bytes, ofLe_le, width, BitVec.toNat_ofNat, Nat.mod_mod, Nat.mod_eq_of_lt v.isLt]

theorem fetch_put_apart (small : w' / 8 ≤ 2 ^ 64) (apart : ∀ x, Within b (w' / 8) x → ¬ Within a (w / 8) x) :
    fetch w' (put mem a v) b = fetch w' mem b :=
  fetch_congr small fun x inside => put_other (apart x inside)

theorem within_part {o : Nat} (fits : o + n ≤ m) (small : m ≤ 2 ^ 64) (inside : Within (a + BitVec.ofNat 64 o) n x) :
    Within a m x ∧ o ≤ (x - a).toNat ∧ (x - a).toNat < o + n := by
  unfold Within at inside ⊢
  have shift : x - (a + BitVec.ofNat 64 o) = x - a - BitVec.ofNat 64 o := by bv_omega
  have bound := (x - a).isLt
  rw [shift, BitVec.toNat_sub, BitVec.toNat_ofNat] at inside
  omega

theorem fetch_put_field {o o' size : Nat} (small : size ≤ 2 ^ 64) (fits : o + w / 8 ≤ size) (fits' : o' + w' / 8 ≤ size)
    (apart : o + w / 8 ≤ o' ∨ o' + w' / 8 ≤ o) :
    fetch w' (put mem (a + BitVec.ofNat 64 o) v) (a + BitVec.ofNat 64 o') = fetch w' mem (a + BitVec.ofNat 64 o') := by
  apply fetch_put_apart (by omega)
  intro x inside other
  have here := within_part fits' small inside
  have there := within_part fits small other
  omega

theorem within_ofNat {start : Nat} (fits : start + n ≤ 2 ^ 64) :
    Within (BitVec.ofNat 64 start) n x ↔ start ≤ x.toNat ∧ x.toNat < start + n := by
  have bound := x.isLt
  unfold Within
  rw [BitVec.toNat_sub, BitVec.toNat_ofNat]
  omega

end Words

end Library
