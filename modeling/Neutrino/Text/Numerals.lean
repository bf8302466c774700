import Neutrino.Text.Model

namespace Neutrino.Text

open Library

def digitChar (d : Nat) : Byte := bchars.getD d 0#8

def numeral (base n : Nat) : List Byte :=
  if n = 0 then [0x30#8] else ((base.digits n).map digitChar).reverse

section Digits

variable {tbuf : Tbuf} {base : W32} {i : W64} {s : List Byte} {fuel : Nat}

/-- The first bytes of `tbuf` are those of `s`. -/
def Holds (tbuf : Tbuf) (s : List Byte) : Prop := ∀ j < s.length, tbuf[j]? = s[j]?

theorem Holds.write (holds : Holds tbuf s) (inside : s.length < 32) (c : Byte) :
    Holds (tbuf.set s.length c inside) (s ++ [c]) := by
  intro j below
  rw [List.length_append, List.length_singleton] at below
  rw [Vector.getElem?_set]
  by_cases last : s.length = j
  · subst last
    simp
  · rw [if_neg last, holds j (by omega), List.getElem?_append_left (by omega)]

theorem base_toNat (base : W32) : (base.setWidth 64).toNat = base.toNat := by
  rw [BitVec.toNat_setWidth]
  omega

theorem digits_step (more : 1 < base.toNat) (nonzero : i ≠ 0#64) : base.toNat.digits i.toNat =
    (i % base.setWidth 64).toNat :: base.toNat.digits (i / base.setWidth 64).toNat := by
  have positive : 0 < i.toNat := by
    apply Nat.pos_of_ne_zero
    intro zero
    exact nonzero (BitVec.eq_of_toNat_eq zero)
  rw [BitVec.toNat_umod, BitVec.toNat_udiv, base_toNat, Nat.digits_def' more positive]

theorem base_ne_zero (more : 1 < base.toNat) : base ≠ 0#32 := by
  rintro rfl
  exact absurd more (by decide)

theorem ltoaDigits_yields (more : 1 < base.toNat) (holds : Holds tbuf s)
    (inside : s.length + (base.toNat.digits i.toNat).length ≤ 32) (enough : (base.toNat.digits i.toNat).length < fuel) :
    Yields tbuf (ltoaDigits base fuel i s.length) fun top tbuf' =>
      top = s.length + (base.toNat.digits i.toNat).length ∧
      Holds tbuf' (s ++ (base.toNat.digits i.toNat).map digitChar) := by
  induction fuel generalizing i s tbuf with
  | zero => exact absurd enough (Nat.not_lt_zero _)
  | succ fuel ih =>
    rw [ltoaDigits]
    by_cases zero : i = 0#64
    · subst zero
      rw [if_pos rfl]
      refine .pure ⟨?_, ?_⟩
      · simp
      · simpa using holds
    · rw [if_neg zero, if_neg (base_ne_zero more)]
      rw [digits_step more zero] at inside enough ⊢
      rw [List.length_cons] at inside enough
      have room : s.length < 32 := by omega
      have written : writeTbuf s.length (bchars.getD (i % base.setWidth 64).toNat 0#8) tbuf =
          some ((), tbuf.set s.length (digitChar (i % base.setWidth 64).toNat) room) := by
        rw [writeTbuf, dif_pos room]
        rfl
      have length : (s ++ [digitChar (i % base.setWidth 64).toNat]).length = s.length + 1 := by simp
      refine .after written ?_
      have rest := @ih _ (i / base.setWidth 64) _ (holds.write room (digitChar (i % base.setWidth 64).toNat))
        (by rw [length]; omega) (by omega)
      rw [length] at rest
      refine rest.mono ?_
      intro top tbuf' done
      rw [List.append_assoc] at done
      refine ⟨?_, done.2⟩
      rw [done.1, List.length_cons]
      omega

theorem ltoaDigits_overrun (more : 1 < base.toNat) (start : s.length ≤ 32)
    (outside : 32 < s.length + (base.toNat.digits i.toNat).length) :
    ltoaDigits base fuel i s.length tbuf = none := by
  induction fuel generalizing i s tbuf with
  | zero => rfl
  | succ fuel ih =>
    rw [ltoaDigits]
    by_cases zero : i = 0#64
    · subst zero
      simp at outside
      omega
    · rw [if_neg zero, if_neg (base_ne_zero more)]
      rw [digits_step more zero, List.length_cons] at outside
      by_cases room : s.length < 32
      · have length : (s ++ [0#8]).length = s.length + 1 := by simp
        have rest := fun tbuf => @ih tbuf (i / base.setWidth 64) (s ++ [0#8]) (by rw [length]; omega)
          (by rw [length]; omega)
        rw [length] at rest
        simp only [Bind.bind, StateT.bind, writeTbuf, dif_pos room, Option.bind, rest]
      · simp only [Bind.bind, StateT.bind, writeTbuf, dif_neg room, Option.bind]

theorem map_chars (s : List Byte) : (List.range s.length).map (chars s) = s := by
  apply List.ext_getElem
  · simp
  · intro j _ inside
    simp [chars, inside]

theorem readBack (holds : Holds tbuf s) :
    (List.range s.length).mapM (fun opos => readTbuf (s.length - 1 - opos)) tbuf = some (s.reverse, tbuf) := by
  have reads : ∀ opos ∈ List.range s.length, readTbuf (s.length - 1 - opos) tbuf =
      some (chars s.reverse opos, tbuf) := by
    intro opos member
    have below := List.mem_range.mp member
    have place : s[s.length - 1 - opos]? = some (chars s.reverse opos) := by
      rw [← List.getElem?_reverse below, chars, List.getD_eq_getElem?_getD, List.getElem?_eq_getElem (by simpa)]
      rfl
    rw [readTbuf, holds _ (by omega), place]
    rfl
  have back := map_chars s.reverse
  rw [List.length_reverse] at back
  rw [mapM_reads reads, back]

theorem ltoa_yields (more : 1 < base.toNat) (known : base.toNat ≤ 16) (inside : i.toNat < base.toNat ^ 32) :
    Yields tbuf (ltoa i base) fun written _ => written = numeral base.toNat i.toNat ++ [0#8] := by
  have small : ¬ base > 16#32 := Nat.not_lt.mpr known
  rw [ltoa]
  by_cases zero : i = 0#64
  · subst zero
    rw [if_pos (.inl rfl)]
    exact .pure rfl
  · have nonzero : i.toNat ≠ 0 := fun none => zero (BitVec.eq_of_toNat_eq none)
    have length := (Nat.digits_length_le_iff more i.toNat).mpr inside
    rw [if_neg (not_or.mpr ⟨zero, small⟩)]
    refine (@ltoaDigits_yields tbuf base i [] 65 more (fun _ below => absurd below (Nat.not_lt_zero _)) (by simpa)
      (by omega)).bind ?_
    intro top tbuf' done
    have ⟨count, holds⟩ := done
    rw [List.nil_append] at holds
    have whole : top = ((base.toNat.digits i.toNat).map digitChar).length := by simp [count]
    subst whole
    refine .after (readBack holds) (.pure ?_)
    rw [numeral, if_neg nonzero]

theorem ltoa_overrun (more : 1 < base.toNat) (known : base.toNat ≤ 16) (outside : base.toNat ^ 32 ≤ i.toNat) :
    ltoa i base tbuf = none := by
  have small : ¬ base > 16#32 := Nat.not_lt.mpr known
  have nonzero : i ≠ 0#64 := by
    rintro rfl
    have positive : 0 < base.toNat ^ 32 := Nat.pow_pos (by omega)
    exact absurd outside (Nat.not_le.mpr positive)
  have length := (Nat.lt_digits_length_iff more i.toNat).mpr outside
  have stopped := @ltoaDigits_overrun tbuf base i [] 65 more (by decide) (by simpa)
  rw [ltoa, if_neg (not_or.mpr ⟨nonzero, small⟩)]
  exact bind_none stopped

end Digits

theorem numeral_length {base n k : Nat} (more : 1 < base) (below : n < base ^ k) (some : 0 < k) :
    (numeral base n).length ≤ k := by
  rw [numeral]
  split
  · exact some
  · rw [List.length_reverse, List.length_map]
    exact (Nat.digits_length_le_iff more n).mpr below

theorem natAbs_of_nonneg {i : W64} (sign : ¬ i.toInt < 0) : i.toNat = i.toInt.natAbs := by
  rw [BitVec.toInt_eq_toNat_cond] at sign ⊢
  split at sign <;> omega

theorem natAbs_of_neg {i : W64} (sign : i.toInt < 0) : (-i).toNat = i.toInt.natAbs := by
  rw [BitVec.toNat_neg]
  rw [BitVec.toInt_eq_toNat_cond] at sign ⊢
  split at sign <;> omega

theorem ltoaS_eq {i : W64} {base : W32} (known : base.toNat ≤ 16) : ∃ magnitude : W64,
    magnitude.toNat = i.toInt.natAbs ∧ ltoaS i base =
      if i.toInt < 0 then (do return 0x2d#8 :: (← ltoa magnitude base)) else ltoa magnitude base := by
  have small : ¬ base > 16#32 := Nat.not_lt.mpr known
  by_cases sign : i.toInt < 0
  · refine ⟨-i, natAbs_of_neg sign, ?_⟩
    rw [ltoaS, if_neg small, if_pos sign, if_pos sign]
  · refine ⟨i, natAbs_of_nonneg sign, ?_⟩
    rw [ltoaS, if_neg small, if_neg sign, if_neg sign]

/-- The size of the arrays that `vstrf` and `kpanic` declare for a conversion. -/
def declared (base : W32) : Nat := if base = 2#32 then 128 else 32

section Bounds

variable {tbuf : Tbuf} {base : W32} {i : W64}

section

variable (used : base ∈ [2#32, 10#32, 16#32])
include used

theorem used_base : 1 < base.toNat ∧ base.toNat ≤ 16 := by
  simp only [List.mem_cons, List.not_mem_nil, or_false] at used
  rcases used with rfl | rfl | rfl <;> decide

theorem inside_iff : i.toNat < base.toNat ^ 32 ↔ (base = 2#32 → i.toNat < 2 ^ 32) := by
  have bound := i.isLt
  simp only [List.mem_cons, List.not_mem_nil, or_false] at used
  rcases used with rfl | rfl | rfl
  · simp
  · simp
    omega
  · simp
    omega

theorem numeral_declared (inside : i.toNat < base.toNat ^ 32) :
    (numeral base.toNat i.toNat).length + 2 ≤ declared base := by
  have ⟨more, _⟩ := used_base used
  have bound := i.isLt
  simp only [List.mem_cons, List.not_mem_nil, or_false] at used
  rcases used with rfl | rfl | rfl
  · have length := numeral_length more inside (by decide)
    have size : declared 2#32 = 128 := rfl
    omega
  · have length := @numeral_length (10#32).toNat i.toNat 20 more (by simp; omega) (by decide)
    have size : declared 10#32 = 32 := rfl
    omega
  · have length := @numeral_length (16#32).toNat i.toNat 16 more (by simp; omega) (by decide)
    have size : declared 16#32 = 32 := rfl
    omega

theorem ltoa_declared_iff (spare : Nat) (few : spare ≤ 1) :
    (Yields tbuf (ltoa i base) fun written _ => written.length + spare ≤ declared base) ↔
      (base = 2#32 → i.toNat < 2 ^ 32) := by
  have ⟨more, known⟩ := used_base used
  rw [← inside_iff used]
  constructor
  · intro yields
    by_contra outside
    obtain ⟨written, tbuf', taken, _⟩ := yields
    rw [ltoa_overrun more known (Nat.not_lt.mp outside)] at taken
    cases taken
  · intro inside
    have fits := numeral_declared used inside
    refine (ltoa_yields more known inside).mono ?_
    rintro written _ rfl
    rw [List.length_append, List.length_singleton]
    omega

end

/-- The conversions stay inside `tbuf` and inside the arrays that their callers declare exactly
    if no number of more than 32 binary digits is written in base 2. -/
theorem conversions_inside_iff (tbuf : Tbuf) (i : W64) (base : W32) (used : base ∈ [2#32, 10#32, 16#32]) :
    ((Yields tbuf (ltoa i base) fun written _ => written.length ≤ declared base) ↔
      (base = 2#32 → i.toNat < 2 ^ 32)) ∧
    ((Yields tbuf (ltoaS i base) fun written _ => written.length ≤ declared base) ↔
      (base = 2#32 → i.toInt.natAbs < 2 ^ 32)) := by
  refine ⟨ltoa_declared_iff used 0 (by decide), ?_⟩
  obtain ⟨magnitude, same, code⟩ := @ltoaS_eq i base (used_base used).2
  rw [code, ← same]
  by_cases sign : i.toInt < 0
  · rw [if_pos sign, ← ltoa_declared_iff used 1 (by decide)]
    constructor
    · rintro ⟨written, tbuf', taken, fits⟩
      obtain ⟨rest, _, first, last⟩ := bind_some taken
      cases last
      exact ⟨rest, tbuf', first, fits⟩
    · rintro ⟨written, tbuf', taken, fits⟩
      exact ⟨0x2d#8 :: written, tbuf', bind_eq taken, fits⟩
  · rw [if_neg sign]
    exact ltoa_declared_iff used 0 (by decide)

theorem conversions_inside_ff :
    Yields (Vector.replicate 32 0#8) (ltoa 0xff#64 16#32) fun written _ => written.length ≤ 32 :=
  (conversions_inside_iff (Vector.replicate 32 0#8) 0xff#64 16#32 (by decide)).1.mpr (by decide)

/-- The directive `%b` with the argument `2 ^ 32`. -/
theorem binary_overrun : ¬ Yields (Vector.replicate 32 0#8) (ltoa 0x100000000#64 2#32) fun written _ =>
    written.length ≤ declared 2#32 := by
  rintro ⟨written, tbuf, taken, _⟩
  rw [ltoa_overrun (by decide) (by decide) (by decide)] at taken
  cases taken

end Bounds

end Neutrino.Text
