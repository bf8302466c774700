import Mathlib.Algebra.Group.Nat.Defs
import Mathlib.Data.List.Basic
import Mathlib.Logic.Function.Basic

namespace Library

/-- The `n` low bytes of a number, least significant first. -/
def le : Nat → Nat → List (BitVec 8)
  | 0, _ => []
  | n + 1, v => BitVec.ofNat 8 v :: le n (v / 256)

def ofLe : List (BitVec 8) → Nat
  | [] => 0
  | byte :: bytes => byte.toNat + 256 * ofLe bytes

@[simp]
theorem le_length (n v : Nat) : (le n v).length = n := by
  induction n generalizing v with
  | zero => rfl
  | succ n ih => simp [le, ih]

theorem ofLe_le (n v : Nat) : ofLe (le n v) = v % 256 ^ n := by
  induction n generalizing v with
  | zero => simp [le, ofLe, Nat.mod_one]
  | succ n ih =>
    have low : (BitVec.ofNat 8 v).toNat = v % 256 := BitVec.toNat_ofNat v 8
    rw [le, ofLe, ih, low, Nat.pow_succ', Nat.mod_mul]

abbrev ByteMemory := BitVec 64 → BitVec 8

def load (mem : ByteMemory) (a : BitVec 64) (n : Nat) : List (BitVec 8) :=
  (List.range n).map fun k => mem (a + BitVec.ofNat 64 k)

def store (mem : ByteMemory) (a : BitVec 64) (bytes : List (BitVec 8)) : ByteMemory :=
  fun x => (bytes[(x - a).toNat]?).getD (mem x)

variable {mem : ByteMemory} {a base : BitVec 64} {bytes : List (BitVec 8)}

@[simp]
theorem load_length (n : Nat) : (load mem a n).length = n := by simp [load]

theorem load_getElem? {n k : Nat} (inside : k < n) :
    (load mem a n)[k]? = some (mem (a + BitVec.ofNat 64 k)) := by
  simp [load, inside]

theorem load_succ (n : Nat) : load mem a (n + 1) = mem a :: load mem (a + 1) n := by
  simp only [load, List.range_succ_eq_map, List.map_cons, List.map_map, BitVec.ofNat_eq_ofNat,
    BitVec.add_zero]
  congr 1
  apply List.map_congr_left
  intro k _
  have shift : a + 1#64 + BitVec.ofNat 64 k = a + BitVec.ofNat 64 (k + 1) := by
    rw [BitVec.ofNat_add, BitVec.add_assoc, BitVec.add_comm 1#64]
  simp only [Function.comp, Nat.succ_eq_add_one, shift]

theorem load_part {i n : Nat} (placed : load mem base bytes.length = bytes)
    (inside : i + n ≤ bytes.length) :
    load mem (base + BitVec.ofNat 64 i) n = (bytes.drop i).take n := by
  apply List.ext_getElem?
  intro k
  by_cases within : k < n
  · rw [load_getElem? within, List.getElem?_take_of_lt within, List.getElem?_drop,
      BitVec.add_assoc, ← BitVec.ofNat_add]
    conv => rhs; rw [← placed]
    rw [load_getElem? (by omega)]
  · rw [List.getElem?_eq_none (by simpa using within), List.getElem?_eq_none]
    simp only [List.length_take, List.length_drop]
    omega

theorem load_store_self (fits : bytes.length ≤ 2 ^ 64) :
    load (store mem a bytes) a bytes.length = bytes := by
  apply List.ext_getElem?
  intro k
  by_cases within : k < bytes.length
  · have back : (a + BitVec.ofNat 64 k - a).toNat = k := by
      rw [BitVec.add_comm, BitVec.add_sub_cancel, BitVec.toNat_ofNat]
      exact Nat.mod_eq_of_lt (by omega)
    rw [load_getElem? within, store, back, List.getElem?_eq_getElem within, Option.getD_some]
  · rw [List.getElem?_eq_none (by simpa using within), List.getElem?_eq_none (by omega)]

theorem load_store_apart {i j n : Nat} (apart : i + bytes.length ≤ j ∨ j + n ≤ i)
    (small : i + bytes.length ≤ 2 ^ 63 ∧ j + n ≤ 2 ^ 63) :
    load (store mem (base + BitVec.ofNat 64 i) bytes) (base + BitVec.ofNat 64 j) n =
      load mem (base + BitVec.ofNat 64 j) n := by
  apply List.map_congr_left
  intro k member
  have within : k < n := List.mem_range.mp member
  have away : bytes.length ≤
      (base + BitVec.ofNat 64 j + BitVec.ofNat 64 k - (base + BitVec.ofNat 64 i)).toNat := by
    have cancel : base + BitVec.ofNat 64 j + BitVec.ofNat 64 k - (base + BitVec.ofNat 64 i) =
        BitVec.ofNat 64 (j + k) - BitVec.ofNat 64 i := by
      rw [BitVec.ofNat_add]
      bv_omega
    have left : (BitVec.ofNat 64 (j + k)).toNat = j + k := by
      rw [BitVec.toNat_ofNat, Nat.mod_eq_of_lt (by omega)]
    have right : (BitVec.ofNat 64 i).toNat = i := by
      rw [BitVec.toNat_ofNat, Nat.mod_eq_of_lt (by omega)]
    rw [cancel, BitVec.toNat_sub, left, right]
    rcases apart with behind | before
    · have wraps : 2 ^ 64 - i + (j + k) = (j + k - i) + 2 ^ 64 := by omega
      rw [wraps, Nat.add_mod_right, Nat.mod_eq_of_lt (by omega)]
      omega
    · rw [Nat.mod_eq_of_lt (by omega)]
      omega
  rw [store, List.getElem?_eq_none away, Option.getD_none]

/-- The bytes before the first zero, if one comes within so many bytes. -/
def cstring (mem : ByteMemory) (a : BitVec 64) : Nat → Option (List (BitVec 8))
  | 0 => none
  | fuel + 1 => if mem a = 0 then some [] else (cstring mem (a + 1) fuel).map (mem a :: ·)

theorem cstring_of_load {name : List (BitVec 8)} {fuel : Nat}
    (placed : load mem a (name.length + 1) = name ++ [0]) (nonzero : ∀ byte ∈ name, byte ≠ 0)
    (enough : name.length < fuel) : cstring mem a fuel = some name := by
  induction name generalizing a fuel with
  | nil =>
    cases fuel with
    | zero => simp at enough
    | succ fuel =>
      rw [List.length_nil, load_succ] at placed
      simp [cstring, (List.cons.inj placed).1]
  | cons byte name ih =>
    cases fuel with
    | zero => simp at enough
    | succ fuel =>
      rw [List.length_cons, load_succ, List.cons_append] at placed
      obtain ⟨first, rest⟩ := List.cons.inj placed
      have other := nonzero byte List.mem_cons_self
      have later := ih rest (fun b member => nonzero b (List.mem_cons_of_mem _ member))
        (by simpa using enough)
      rw [cstring, first, if_neg other, later, Option.map_some]

section Copy

variable {source dest : BitVec 64}

/-- The memory when the first `i` bytes have been copied, one after the other and upwards. A copy that
    runs into its own output repeats the bytes between source and destination. -/
def copiedTo (mem : ByteMemory) (source dest : BitVec 64) (i : Nat) : ByteMemory := fun x =>
  if (x - dest).toNat < i then mem (source + BitVec.ofNat 64 ((x - dest).toNat % (dest - source).toNat)) else mem x

theorem copiedTo_source (mem : ByteMemory) {i : Nat} (small : i < 2 ^ 64) :
    copiedTo mem source dest i (source + BitVec.ofNat 64 i) =
      mem (source + BitVec.ofNat 64 (i % (dest - source).toNat)) := by
  have bound := (dest - source).isLt
  have place : (source + BitVec.ofNat 64 i - dest).toNat = (2 ^ 64 - (dest - source).toNat + i) % 2 ^ 64 := by
    have cancel : source + BitVec.ofNat 64 i - dest = BitVec.ofNat 64 i - (dest - source) := by
      bv_omega
    rw [cancel, BitVec.toNat_sub, BitVec.toNat_ofNat, Nat.mod_eq_of_lt small]
  rw [copiedTo, place]
  generalize (dest - source).toNat = ahead at bound ⊢
  split
  · rename_i written
    have before : 0 < ahead ∧ ahead ≤ i := by omega
    have back : (2 ^ 64 - ahead + i) % 2 ^ 64 = i - ahead := by omega
    rw [back, ← Nat.mod_eq_sub_mod before.2]
  · rename_i unwritten
    have ahead' : ahead = 0 ∨ i < ahead := by omega
    rcases ahead' with rfl | less
    · rw [Nat.mod_zero]
    · rw [Nat.mod_eq_of_lt less]

theorem copiedTo_succ (mem : ByteMemory) {i : Nat} (small : i < 2 ^ 64) :
    Function.update (copiedTo mem source dest i) (dest + BitVec.ofNat 64 i)
      (mem (source + BitVec.ofNat 64 (i % (dest - source).toNat))) = copiedTo mem source dest (i + 1) := by
  funext x
  by_cases here : x = dest + BitVec.ofNat 64 i
  · have place : (x - dest).toNat = i := by
      rw [here, BitVec.add_comm, BitVec.add_sub_cancel, BitVec.toNat_ofNat, Nat.mod_eq_of_lt small]
    rw [here, Function.update_self, ← here, copiedTo, place, if_pos (Nat.lt_succ_self i)]
  · have apart : (x - dest).toNat ≠ i := by
      intro same
      apply here
      rw [← same, BitVec.ofNat_toNat, BitVec.setWidth_eq, BitVec.add_comm, BitVec.sub_add_cancel]
    have order : (x - dest).toNat < i + 1 ↔ (x - dest).toNat < i := by omega
    rw [Function.update_of_ne here, copiedTo, copiedTo]
    simp only [order]

end Copy

end Library
