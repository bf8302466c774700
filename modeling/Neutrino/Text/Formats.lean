import Neutrino.Text.Numerals

namespace Neutrino.Text

open Library

/-- The bytes of a string in front of its terminator. -/
structure CString where
  bytes : List Byte
  proper : 0#8 ∉ bytes

-- Strings and their lengths.

section Strings

variable {str : Chars} {s : List Byte}

theorem strlenFrom_eq (proper : 0#8 ∉ s) {fuel l : Nat} (here : ∀ j, str (l + j) = chars s j) :
    strlenFrom str fuel l = if s.length < fuel then some (l + s.length) else none := by
  induction fuel generalizing s l with
  | zero => rfl
  | succ fuel ih =>
    have first := here 0
    rw [Nat.add_zero] at first
    rw [strlenFrom, first]
    cases s with
    | nil => rfl
    | cons c s =>
      have ⟨other, rest⟩ := not_or.mp (mt List.mem_cons.mpr proper)
      have next : ∀ j, str (l + 1 + j) = chars s j := by
        intro j
        rw [Nat.add_assoc, Nat.add_comm 1 j]
        exact here (j + 1)
      rw [if_neg (show ¬ chars (c :: s) 0 = 0#8 from Ne.symm other), ih rest next, List.length_cons, Nat.add_assoc,
        Nat.add_comm 1]
      by_cases short : s.length < fuel
      · rw [if_pos short, if_pos (by omega)]
      · rw [if_neg short, if_neg (by omega)]

theorem strlen_chars (proper : 0#8 ∉ s) : strlen (chars s) = if s.length < 2 ^ 31 then some s.length else none := by
  rw [strlen, strlenFrom_eq proper fun j => by rw [Nat.zero_add], Nat.zero_add]

theorem chars_terminated (s : List Byte) : chars (s ++ [0#8]) = chars s := by
  funext j
  rw [chars, chars, List.getD_eq_getElem?_getD, List.getD_eq_getElem?_getD]
  rcases Nat.lt_trichotomy j s.length with below | rfl | above
  · rw [List.getElem?_append_left below]
  · simp
  · rw [List.getElem?_eq_none (by simp; omega), List.getElem?_eq_none (by omega)]

theorem putString_chars (proper : 0#8 ∉ s) (short : s.length < 2 ^ 31) (p : Printer) :
    putString (chars s) p = some ((), { p with buffer := p.buffer ++ s }) := by
  simp only [putString, strlen_chars proper, if_pos short, Option.bind_eq_bind, Option.bind_some, map_chars]

theorem putString_long (proper : 0#8 ∉ s) (long : ¬ s.length < 2 ^ 31) (p : Printer) : putString (chars s) p = none := by
  simp only [putString, strlen_chars proper, if_neg long]
  rfl

end Strings

-- Numerals and what they say.

def digitValue (base : Nat) (c : Byte) : Option Nat :=
  if bchars.idxOf c < base then some (bchars.idxOf c) else none

def parse (base : Nat) (s : List Byte) : Option Nat :=
  if s = [] then none else s.foldlM (fun n c => (digitValue base c).map (base * n + ·)) 0

def parseSigned (base : Nat) (s : List Byte) : Option Int :=
  if s.head? = some 0x2d#8 then (parse base s.tail).map fun (n : Nat) => -(n : Int)
  else (parse base s).map fun (n : Nat) => (n : Int)

/-- The row says the number, and does not begin with a zero it could do without. -/
def IsNumeral (base n : Nat) (s : List Byte) : Prop :=
  parse base s = some n ∧ (s.head? = some 0x30#8 → s = [0x30#8])

section Numerals

variable {base : Nat}

theorem digitChar_facts : ∀ d < 16, digitChar d ≠ 0#8 ∧ digitChar d ≠ 0x2d#8 ∧ bchars.idxOf (digitChar d) = d ∧
    (digitChar d = 0x30#8 → d = 0) := by decide

theorem foldlM_digits (known : base ≤ 16) {digits : List Nat} (below : ∀ d ∈ digits, d < base) :
    (digits.map digitChar).reverse.foldlM (fun n c => (digitValue base c).map (base * n + ·)) 0 =
      some (Nat.ofDigits base digits) := by
  induction digits with
  | nil => rfl
  | cons d digits ih =>
    have first := below d List.mem_cons_self
    have place : bchars.idxOf (digitChar d) = d := (digitChar_facts d (by omega)).2.2.1
    have value : digitValue base (digitChar d) = some d := by rw [digitValue, place, if_pos first]
    rw [List.map_cons, List.reverse_cons, List.foldlM_append, ih fun e member => below e (List.mem_cons_of_mem d member)]
    simp [value, Nat.ofDigits_cons, Nat.add_comm]

theorem numeral_ne_nil (base n : Nat) : numeral base n ≠ [] := by
  rw [numeral]
  split
  · exact List.cons_ne_nil _ _
  · next nonzero =>
    simp [Nat.digits_ne_nil_iff_ne_zero, nonzero]

theorem numeral_isNumeral (more : 1 < base) (known : base ≤ 16) (n : Nat) : IsNumeral base n (numeral base n) := by
  by_cases zero : n = 0
  · subst zero
    refine ⟨?_, fun _ => rfl⟩
    show parse base [0x30#8] = some 0
    have value : digitValue base 0x30#8 = some 0 := if_pos (show 0 < base by omega)
    simp [parse, value]
  · constructor
    · rw [parse, if_neg (numeral_ne_nil base n), numeral, if_neg zero,
        foldlM_digits known fun d member => Nat.digits_lt_base more member, Nat.ofDigits_digits]
    · rw [numeral, if_neg zero, List.head?_reverse, List.getLast?_map]
      intro first
      have last := Nat.getLast_digit_ne_zero base zero
      rw [List.getLast?_eq_getLast_of_ne_nil (Nat.digits_ne_nil_iff_ne_zero.mpr zero)] at first
      have below := Nat.digits_lt_base more (List.getLast_mem (Nat.digits_ne_nil_iff_ne_zero.mpr zero))
      exact absurd ((digitChar_facts _ (by omega)).2.2.2 (Option.some.inj first)) last

theorem numeral_mem (more : 1 < base) (known : base ≤ 16) {n : Nat} {c : Byte} (member : c ∈ numeral base n) :
    c ≠ 0#8 ∧ c ≠ 0x2d#8 := by
  rw [numeral] at member
  split at member
  · rw [List.mem_singleton] at member
    subst member
    decide
  · rw [List.mem_reverse, List.mem_map] at member
    obtain ⟨d, inside, rfl⟩ := member
    have facts := digitChar_facts d (by have := Nat.digits_lt_base more inside; omega)
    exact ⟨facts.1, facts.2.1⟩

end Numerals

-- Formats and their renderings.

inductive Directive
  | text
  | unsigned
  | decimal
  | integer
  | hex
  | upperHex
  deriving DecidableEq

def Directive.letter : Directive → Byte
  | text => 0x63#8
  | unsigned => 0x75#8
  | decimal => 0x64#8
  | integer => 0x69#8
  | hex => 0x78#8
  | upperHex => 0x58#8

/-- A piece of a format: a character as it is, or a directive with its argument. -/
inductive Piece
  | literal (c : Byte) (plain : c ≠ 0#8 ∧ c ≠ 0x25#8)
  | directive (d : Directive) (arg : W64)

def Piece.format : Piece → List Byte
  | literal c _ => [c]
  | directive d _ => [0x25#8, d.letter]

def Piece.args : Piece → List W64
  | literal _ _ => []
  | directive _ arg => [arg]

def signedNumeral (base : Nat) (n : Int) : List Byte :=
  (if n < 0 then [0x2d#8] else []) ++ numeral base n.natAbs

section Rendering

variable (strings : W64 → CString)

def Directive.render (arg : W64) : Directive → List Byte
  | text => (strings arg).bytes
  | unsigned => numeral 10 arg.toNat
  | decimal | integer => signedNumeral 10 arg.toInt
  | hex | upperHex => [0x30#8, 0x78#8] ++ numeral 16 arg.toNat

def Piece.render : Piece → List Byte
  | literal c _ => [c]
  | directive d arg => d.render strings arg

def format (pieces : List Piece) : List Byte := pieces.flatMap Piece.format

def rendering (pieces : List Piece) : List Byte := pieces.flatMap (Piece.render strings)

/-- What is read off the rendering of a directive is its argument. -/
def Directive.Faithful (arg : W64) (s : List Byte) : Directive → Prop
  | text => s = (strings arg).bytes
  | unsigned => IsNumeral 10 arg.toNat s
  | decimal | integer => parseSigned 10 s = some arg.toInt ∧ ∀ digits, s = digits ∨ s = 0x2d#8 :: digits →
      digits.head? = some 0x30#8 → digits = [0x30#8]
  | hex | upperHex => ∃ digits, s = [0x30#8, 0x78#8] ++ digits ∧ IsNumeral 16 arg.toNat digits

theorem signedNumeral_parsed (n : Int) : parseSigned 10 (signedNumeral 10 n) = some n ∧
    ∀ digits, signedNumeral 10 n = digits ∨ signedNumeral 10 n = 0x2d#8 :: digits →
      digits.head? = some 0x30#8 → digits = [0x30#8] := by
  have ⟨parsed, short⟩ := @numeral_isNumeral 10 (by decide) (by decide) n.natAbs
  have unsigned : (numeral 10 n.natAbs).head? ≠ some 0x2d#8 := by
    intro first
    exact (numeral_mem (by decide) (by decide) (List.mem_of_mem_head? first)).2 rfl
  rw [signedNumeral]
  by_cases negative : n < 0
  · rw [if_pos negative]
    constructor
    · rw [List.singleton_append, parseSigned, if_pos List.head?_cons, List.tail_cons, parsed, Option.map_some]
      congr 1
      omega
    · rintro digits (rfl | same) zero
      · cases zero
      · cases same
        exact short zero
  · rw [if_neg negative, List.nil_append]
    constructor
    · rw [parseSigned, if_neg unsigned, parsed, Option.map_some]
      congr 1
      omega
    · rintro digits (rfl | same) zero
      · exact short zero
      · rw [same] at unsigned
        exact absurd rfl unsigned

theorem Directive.render_faithful (letter : Directive) (arg : W64) :
    letter.Faithful strings arg (letter.render strings arg) := by
  cases letter with
  | text => rfl
  | unsigned => exact numeral_isNumeral (by decide) (by decide) _
  | decimal => exact signedNumeral_parsed _
  | integer => exact signedNumeral_parsed _
  | hex => exact ⟨_, rfl, numeral_isNumeral (by decide) (by decide) _⟩
  | upperHex => exact ⟨_, rfl, numeral_isNumeral (by decide) (by decide) _⟩

end Rendering

end Neutrino.Text
