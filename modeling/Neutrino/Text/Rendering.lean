import Neutrino.Text.Formats

namespace Neutrino.Text

open Library

section Directives

variable {memory : W64 → Chars} {args : Nat → W64} {strings : W64 → CString} {p : Printer} {tbuf : Tbuf} {i : W64}

theorem ltoa_decimal : Yields tbuf (ltoa i 10#32) fun written _ => written = numeral 10 i.toNat ++ [0#8] :=
  ltoa_yields (by decide) (by decide) ((inside_iff (by decide)).mpr nofun)

theorem ltoa_hex : Yields tbuf (ltoa i 16#32) fun written _ => written = numeral 16 i.toNat ++ [0#8] :=
  ltoa_yields (by decide) (by decide) ((inside_iff (by decide)).mpr nofun)

theorem ltoaS_yields : Yields tbuf (ltoaS i 10#32) fun written _ => written = signedNumeral 10 i.toInt ++ [0#8] := by
  obtain ⟨magnitude, same, code⟩ := @ltoaS_eq i 10#32 (by decide)
  have number := @ltoa_decimal tbuf magnitude
  rw [code, signedNumeral, ← same]
  by_cases negative : i.toInt < 0
  · rw [if_pos negative, if_pos negative]
    refine number.bind ?_
    rintro _ tbuf' rfl
    exact .pure rfl
  · rw [if_neg negative, if_neg negative]
    exact number

theorem converted_yields {size : Nat} {code : ScratchM (List Byte)} {s : List Byte}
    (yields : Yields p.tbuf code fun written _ => written = s ++ [0#8]) (fits : s.length + 1 ≤ size) :
    Yields p (converted size code) fun str p' => str = chars s ∧ p'.buffer = p.buffer ∧ p'.taken = p.taken := by
  obtain ⟨written, tbuf', taken, rfl⟩ := yields
  have moved : scratch code p = some (s ++ [0#8], { p with tbuf := tbuf' }) := by
    rw [scratch, taken]
    rfl
  refine .after moved ?_
  rw [if_pos (by simpa using fits)]
  exact .pure ⟨chars_terminated s, rfl, rfl⟩

theorem putString_yields {s : List Byte} (proper : 0#8 ∉ s) (short : s.length < 2 ^ 31) :
    Yields p (putString (chars s)) fun _ p' => p'.buffer = p.buffer ++ s ∧ p'.taken = p.taken :=
  .of_eq (putString_chars proper short p) ⟨rfl, rfl⟩

theorem numeral_proper {base : Nat} (more : 1 < base) (known : base ≤ 16) (n : Nat) : 0#8 ∉ numeral base n :=
  fun member => (numeral_mem more known member).1 rfl

theorem signedNumeral_proper (n : Int) : 0#8 ∉ signedNumeral 10 n := by
  rw [signedNumeral, List.mem_append]
  rintro (sign | digit)
  · split at sign
    · cases sign with
      | tail _ rest => cases rest
    · cases sign
  · exact numeral_proper (by decide) (by decide) _ digit

theorem decimal_length (n : W64) : (numeral 10 n.toNat).length ≤ 20 :=
  numeral_length (by decide) (by have := n.isLt; omega) (by decide)

theorem hex_length (n : W64) : (numeral 16 n.toNat).length ≤ 16 :=
  numeral_length (by decide) (by have := n.isLt; omega) (by decide)

theorem signedNumeral_length (n : W64) : (signedNumeral 10 n.toInt).length ≤ 21 := by
  have small : n.toInt.natAbs < 2 ^ 64 := by
    have above := @BitVec.toInt_lt 64 n
    have below := @BitVec.le_toInt 64 n
    omega
  have digits := @numeral_length 10 n.toInt.natAbs 20 (by decide) (by omega) (by decide)
  rw [signedNumeral, List.length_append]
  split
  · rw [List.length_singleton]
    omega
  · rw [List.length_nil]
    omega

theorem putString_finish {s : List Byte} (proper : 0#8 ∉ s) (short : s.length < 2 ^ 31) :
    Yields p (do putString (chars s); return true) fun known p' =>
      known = true ∧ p'.buffer = p.buffer ++ s ∧ p'.taken = p.taken := by
  refine (putString_yields proper short).bind ?_
  intro _ p' done
  exact .pure ⟨rfl, done⟩

theorem number_yields {code : W64 → ScratchM (List Byte)} {s : List Byte}
    (yields : Yields p.tbuf (code (args p.taken)) fun written _ => written = s ++ [0#8]) (proper : 0#8 ∉ s)
    (fits : s.length < 32) :
    Yields p (do
      let c ← vaArg args
      let str ← converted 32 (code c)
      putString str
      return true) fun known p' => known = true ∧ p'.buffer = p.buffer ++ s ∧ p'.taken = p.taken + 1 := by
  have took : vaArg args p = some (args p.taken, { p with taken := p.taken + 1 }) := rfl
  have str := @converted_yields { p with taken := p.taken + 1 } 32 _ s yields fits
  refine .after took (str.bind ?_)
  rintro _ p1 ⟨rfl, buffer, count⟩
  have done := @putString_finish p1 s proper (by omega)
  rw [buffer, count] at done
  exact done

theorem hex_yields :
    Yields p (do
      let c ← vaArg args
      let str ← converted 32 (ltoa c 16#32)
      put 0x30#8
      put 0x78#8
      putString str
      return true) fun known p' => known = true ∧
        p'.buffer = p.buffer ++ ([0x30#8, 0x78#8] ++ numeral 16 (args p.taken).toNat) ∧ p'.taken = p.taken + 1 := by
  have length := hex_length (args p.taken)
  have took : vaArg args p = some (args p.taken, { p with taken := p.taken + 1 }) := rfl
  refine .after took ((converted_yields ltoa_hex (by omega)).bind ?_)
  rintro _ p1 ⟨rfl, buffer, count⟩
  have zero : put 0x30#8 p1 = some ((), { p1 with buffer := p1.buffer ++ [0x30#8] }) := rfl
  have ex : put 0x78#8 { p1 with buffer := p1.buffer ++ [0x30#8] } =
      some ((), { p1 with buffer := p1.buffer ++ [0x30#8] ++ [0x78#8] }) := rfl
  refine .after zero (.after ex ?_)
  refine (putString_finish (numeral_proper (by decide) (by decide) _) (by omega)).mono ?_
  intro known p2 done
  refine ⟨done.1, ?_, done.2.2.trans count⟩
  rw [done.2.1, buffer]
  simp

theorem directive_yields (letter : Directive)
    (placed : letter = .text → memory (args p.taken) = chars (strings (args p.taken)).bytes ∧
      (strings (args p.taken)).bytes.length < 2 ^ 31) :
    Yields p (directive memory args letter.letter) fun known p' =>
      known = true ∧ p'.buffer = p.buffer ++ letter.render strings (args p.taken) ∧ p'.taken = p.taken + 1 := by
  cases letter with
  | text =>
    have ⟨place, short⟩ := placed rfl
    have took : vaArg args p = some (args p.taken, { p with taken := p.taken + 1 }) := rfl
    refine .after took ?_
    show Yields _ (do putString (memory (args p.taken)); return true) _
    rw [place]
    exact putString_finish (strings (args p.taken)).proper short
  | unsigned =>
    have length := decimal_length (args p.taken)
    exact number_yields ltoa_decimal (numeral_proper (by decide) (by decide) _) (Nat.lt_of_le_of_lt length (by decide))
  | decimal =>
    have length := signedNumeral_length (args p.taken)
    exact number_yields ltoaS_yields (signedNumeral_proper _) (Nat.lt_of_le_of_lt length (by decide))
  | integer =>
    have length := signedNumeral_length (args p.taken)
    exact number_yields ltoaS_yields (signedNumeral_proper _) (Nat.lt_of_le_of_lt length (by decide))
  | hex => exact hex_yields
  | upperHex => exact hex_yields

theorem directive_long {s : CString} (place : memory (args p.taken) = chars s.bytes)
    (long : ¬ s.bytes.length < 2 ^ 31) : directive memory args Directive.text.letter p = none := by
  have took : vaArg args p = some (args p.taken, { p with taken := p.taken + 1 }) := rfl
  have stuck : putString (memory (args p.taken)) { p with taken := p.taken + 1 } = none := by
    rw [place, putString_long s.proper long]
  exact (bind_eq took).trans (bind_none stuck)

end Directives

/-- The arguments from number `k` on are those of the pieces, and pointers to their strings. -/
def Matching (memory : W64 → Chars) (args : Nat → W64) (strings : W64 → CString) : Nat → List Piece → Prop
  | _, [] => True
  | k, .literal _ _ :: pieces => Matching memory args strings k pieces
  | k, .directive letter arg :: pieces => args k = arg ∧ (letter = .text → memory arg = chars (strings arg).bytes) ∧
      Matching memory args strings (k + 1) pieces

def ShortStrings (strings : W64 → CString) (pieces : List Piece) : Prop :=
  ∀ a, .directive .text a ∈ pieces → (strings a).bytes.length < 2 ^ 31

section Loop

variable {memory : W64 → Chars} {args : Nat → W64} {strings : W64 → CString} {istr : Chars} {p : Printer}
  {pieces : List Piece} {fuel : Nat} {i : W32}

theorem ShortStrings.tail {piece : Piece} (short : ShortStrings strings (piece :: pieces)) :
    ShortStrings strings pieces := fun a member => short a (List.mem_cons_of_mem piece member)

theorem letter_ne_zero (letter : Directive) : letter.letter ≠ 0#8 := by
  cases letter <;> decide

theorem format_proper (pieces : List Piece) : 0#8 ∉ format pieces := by
  intro member
  obtain ⟨piece, -, inside⟩ := List.mem_flatMap.mp member
  cases piece with
  | literal c plain => exact plain.1 (List.mem_singleton.mp inside).symm
  | directive letter arg =>
    rcases List.mem_cons.mp inside with percent | last
    · exact absurd percent (by decide)
    · exact letter_ne_zero letter (List.mem_singleton.mp last).symm

theorem format_cons (piece : Piece) (pieces : List Piece) : format (piece :: pieces) = piece.format ++ format pieces :=
  List.flatMap_cons

theorem index_add (k : Nat) (inside : i.toNat + k < 2 ^ 32) : (i + BitVec.ofNat 32 k).toNat = i.toNat + k := by
  rw [BitVec.toNat_add, BitVec.toNat_ofNat]
  omega

theorem vstrfLoop_end (here : istr i.toNat = 0#8) : vstrfLoop memory args istr (fuel + 1) i p =
    some (.buffer, { p with buffer := p.buffer ++ [0#8] }) := by
  rw [vstrfLoop, if_pos here]
  rfl

theorem vstrfLoop_literal {c : Byte} (here : istr i.toNat = c) (plain : c ≠ 0#8 ∧ c ≠ 0x25#8) :
    vstrfLoop memory args istr (fuel + 1) i p =
      vstrfLoop memory args istr fuel (i + 1#32) { p with buffer := p.buffer ++ [c] } := by
  rw [vstrfLoop, here, if_neg plain.1, if_neg plain.2]
  rfl

theorem vstrfLoop_directive (here : istr i.toNat = 0x25#8) : vstrfLoop memory args istr (fuel + 1) i = (do
    let known ← directive memory args (istr (i + 1#32).toNat)
    if known then vstrfLoop memory args istr fuel (i + 2#32) else return .one) := by
  rw [vstrfLoop, here, if_neg (by decide), if_pos rfl]

theorem format_literal {c : Byte} {plain : c ≠ 0#8 ∧ c ≠ 0x25#8}
    (here : ∀ j, istr (i.toNat + j) = chars (format (.literal c plain :: pieces)) j)
    (inside : i.toNat + (format (.literal c plain :: pieces)).length < 2 ^ 32) :
    istr i.toNat = c ∧ (∀ j, istr ((i + 1#32).toNat + j) = chars (format pieces) j) ∧
      (i + 1#32).toNat + (format pieces).length < 2 ^ 32 := by
  rw [format_cons, Piece.format, List.singleton_append] at here inside
  rw [List.length_cons] at inside
  have next := @index_add i 1 (by omega)
  rw [next]
  refine ⟨here 0, fun j => ?_, by omega⟩
  rw [Nat.add_assoc, Nat.add_comm 1 j]
  exact here (j + 1)

theorem format_directive {letter : Directive} {arg : W64}
    (here : ∀ j, istr (i.toNat + j) = chars (format (.directive letter arg :: pieces)) j)
    (inside : i.toNat + (format (.directive letter arg :: pieces)).length < 2 ^ 32) :
    istr i.toNat = 0x25#8 ∧ istr (i + 1#32).toNat = letter.letter ∧
      (∀ j, istr ((i + 2#32).toNat + j) = chars (format pieces) j) ∧
      (i + 2#32).toNat + (format pieces).length < 2 ^ 32 := by
  rw [format_cons, Piece.format] at here inside
  rw [List.length_append] at inside
  simp only [List.length_cons, List.length_nil] at inside
  have next := @index_add i 1 (by omega)
  have second := @index_add i 2 (by omega)
  rw [next, second]
  refine ⟨here 0, here 1, fun j => ?_, by omega⟩
  rw [Nat.add_assoc, Nat.add_comm 2 j]
  exact here (j + 2)

def argsCount (pieces : List Piece) : Nat := (pieces.flatMap Piece.args).length

theorem vstrfLoop_yields (matching : Matching memory args strings p.taken pieces)
    (short : ShortStrings strings pieces) (here : ∀ j, istr (i.toNat + j) = chars (format pieces) j)
    (inside : i.toNat + (format pieces).length < 2 ^ 32) (enough : pieces.length < fuel) :
    Yields p (vstrfLoop memory args istr fuel i) fun result p' => result = .buffer ∧
      p'.buffer = p.buffer ++ rendering strings pieces ++ [0#8] ∧ p'.taken = p.taken + argsCount pieces := by
  induction pieces generalizing fuel i p with
  | nil =>
    obtain ⟨fuel, rfl⟩ : ∃ rest, fuel = rest + 1 := ⟨fuel - 1, by rw [List.length_nil] at enough; omega⟩
    refine .of_eq (vstrfLoop_end (here 0)) ⟨rfl, ?_, rfl⟩
    simp [rendering]
  | cons piece pieces ih =>
    rw [List.length_cons] at enough
    obtain ⟨fuel, rfl⟩ : ∃ rest, fuel = rest + 1 := ⟨fuel - 1, by omega⟩
    cases piece with
    | literal c plain =>
      have ⟨first, next, inside⟩ := format_literal here inside
      have rest := @ih { p with buffer := p.buffer ++ [c] } fuel (i + 1#32) matching short.tail next inside (by omega)
      rw [Yields, vstrfLoop_literal first plain]
      refine rest.mono ?_
      intro result p' done
      refine ⟨done.1, ?_, done.2.2⟩
      rw [done.2.1]
      simp [rendering, Piece.render]
    | directive letter arg =>
      have ⟨first, second, next, room⟩ := format_directive here inside
      have ⟨given, place, later⟩ := matching
      subst given
      rw [vstrfLoop_directive first, second]
      refine (directive_yields letter fun text => ⟨place text, short _ (by rw [text]; exact List.mem_cons_self)⟩).bind ?_
      rintro _ p1 ⟨rfl, buffer, count⟩
      rw [← count] at later
      refine (ih later short.tail next room (by omega)).mono ?_
      intro result p' done
      refine ⟨done.1, ?_, ?_⟩
      · rw [done.2.1, buffer]
        simp [rendering, Piece.render]
      · rw [done.2.2, count, argsCount, argsCount, List.flatMap_cons, Piece.args, List.length_append,
          List.length_singleton, Nat.add_assoc]

theorem vstrfLoop_terminator : Ensures p (vstrfLoop memory args istr fuel i) fun result _ =>
    result = .buffer → ∃ j : W32, istr j.toNat = 0#8 := by
  induction fuel generalizing i p with
  | zero => exact .of_none rfl
  | succ fuel ih =>
    rw [vstrfLoop]
    by_cases zero : istr i.toNat = 0#8
    · intro _ _ _ _
      exact ⟨i, zero⟩
    rw [if_neg zero]
    by_cases percent : istr i.toNat = 0x25#8
    · rw [if_pos percent]
      have any : Ensures p (directive memory args (istr (i + 1#32).toNat)) fun _ _ => True := fun _ _ _ => trivial
      refine any.bind ?_
      intro known p1 _
      cases known with
      | true => exact ih
      | false => exact .pure nofun
    · rw [if_neg percent]
      have any : Ensures p (put (istr i.toNat)) fun _ _ => True := fun _ _ _ => trivial
      refine any.bind ?_
      intro _ p1 _
      exact ih

theorem vstrfLoop_short (matching : Matching memory args strings p.taken pieces)
    (here : ∀ j, istr (i.toNat + j) = chars (format pieces) j) (inside : i.toNat + (format pieces).length < 2 ^ 32) :
    Ensures p (vstrfLoop memory args istr fuel i) fun _ _ => ShortStrings strings pieces := by
  induction pieces generalizing fuel i p with
  | nil => exact fun _ _ _ _ member => absurd member List.not_mem_nil
  | cons piece pieces ih =>
    cases fuel with
    | zero => exact .of_none rfl
    | succ fuel =>
      cases piece with
      | literal c plain =>
        have ⟨first, next, inside⟩ := format_literal here inside
        have rest := @ih { p with buffer := p.buffer ++ [c] } fuel (i + 1#32) matching next inside
        rw [Ensures, vstrfLoop_literal first plain]
        refine Ensures.mono rest ?_
        intro _ _ short a member
        rcases List.mem_cons.mp member with same | later
        · cases same
        · exact short a later
      | directive letter arg =>
        have ⟨first, second, next, room⟩ := format_directive here inside
        have ⟨given, place, later⟩ := matching
        subst given
        rw [vstrfLoop_directive first, second]
        by_cases fits : letter = .text → (strings (args p.taken)).bytes.length < 2 ^ 31
        · refine .bind (.of_yields (directive_yields letter fun text => ⟨place text, fits text⟩)) ?_
          rintro _ p1 ⟨rfl, -, count⟩
          rw [← count] at later
          refine Ensures.mono (ih later next room) ?_
          intro _ _ short a member
          rcases List.mem_cons.mp member with same | behind
          · cases same
            exact fits rfl
          · exact short a behind
        · have ⟨text, long⟩ := Classical.not_imp.mp fits
          subst text
          exact .of_none (bind_none (directive_long (place rfl) long))

theorem vstrf_terminated {s : List Byte} (proper : 0#8 ∉ s) :
    Ensures p (vstrf memory args fuel (some (chars s))) fun result _ => result = .buffer → s.length < 2 ^ 32 := by
  intro result p' taken buffer
  obtain ⟨j, zero⟩ := vstrfLoop_terminator _ _ taken buffer
  by_contra long
  have below : j.toNat < s.length := by
    have bound := j.isLt
    omega
  apply proper
  rw [← zero, chars, List.getD_eq_getElem?_getD, List.getElem?_eq_getElem below]
  exact List.getElem_mem below

theorem format_start (s : List Byte) (j : Nat) : chars s ((0#32).toNat + j) = chars s j := by
  rw [show (0#32).toNat + j = j from Nat.zero_add j]

/-- `vstrf` renders a format with matching arguments exactly if the index of the format fits
    into 32 bits and the length of each string into an `int`; the numerals say the arguments. -/
theorem vstrf_renders_iff (memory : W64 → Chars) (args : Nat → W64) (strings : W64 → CString) (tbuf : Tbuf)
    (pieces : List Piece) (matching : Matching memory args strings 0 pieces) :
    ((∃ fuel, Yields ⟨tbuf, [], 0⟩ (vstrf memory args fuel (some (chars (format pieces)))) fun result p =>
        result = .buffer ∧ p.buffer = rendering strings pieces ++ [0#8]) ↔
      (format pieces).length < 2 ^ 32 ∧ ShortStrings strings pieces) ∧
    ∀ letter arg, .directive letter arg ∈ pieces → letter.Faithful strings arg (letter.render strings arg) := by
  refine ⟨⟨?_, ?_⟩, fun letter arg _ => letter.render_faithful strings arg⟩
  · rintro ⟨fuel, result, p, taken, buffer, -⟩
    have whole := vstrf_terminated (format_proper pieces) _ _ taken buffer
    exact ⟨whole, vstrfLoop_short matching (format_start _) (by simpa using whole) _ _ taken⟩
  · intro fits
    refine ⟨pieces.length + 1, ?_⟩
    refine (vstrfLoop_yields matching fits.2 (format_start _) (by simpa using fits.1) (by omega)).mono ?_
    intro result p done
    exact ⟨done.1, done.2.1⟩

end Loop

/-- The format `=%d` with the least integer. -/
def leastPieces : List Piece := [.literal 0x3d#8 (by decide), .directive .decimal 0x8000000000000000#64]

theorem vstrf_renders_least :
    ∃ fuel, Yields ⟨Vector.replicate 32 0#8, [], 0⟩
      (vstrf (fun _ => chars []) (fun _ => 0x8000000000000000#64) fuel (some (chars (format leastPieces)))) fun result p =>
        result = .buffer ∧ p.buffer = rendering (fun _ => ⟨[], List.not_mem_nil⟩) leastPieces ++ [0#8] := by
  refine (vstrf_renders_iff (fun _ => chars []) (fun _ => 0x8000000000000000#64) (fun _ => ⟨[], List.not_mem_nil⟩)
    (Vector.replicate 32 0#8) leastPieces ⟨rfl, nofun, trivial⟩).1.mpr ⟨by decide, ?_⟩
  intro a _
  exact Nat.pow_pos (by decide)

/-- A format of `2 ^ 32` characters: the index comes back to 0 and never meets the terminator. -/
theorem vstrf_endless : ¬ ∃ fuel, Yields ⟨Vector.replicate 32 0#8, [], 0⟩
    (vstrf (fun _ => chars []) (fun _ => 0#64) fuel
      (some (chars (format (List.replicate (2 ^ 32) (.literal 0x61#8 (by decide))))))) fun result p =>
        result = .buffer ∧ p.buffer = rendering (fun _ => ⟨[], List.not_mem_nil⟩)
          (List.replicate (2 ^ 32) (.literal 0x61#8 (by decide))) ++ [0#8] := by
  rintro ⟨fuel, result, p, taken, buffer, -⟩
  have short := vstrf_terminated (format_proper _) _ _ taken buffer
  have length : ∀ n, (format (List.replicate n (.literal 0x61#8 (by decide)))).length = n := by
    intro n
    induction n with
    | zero => rfl
    | succ n ih => rw [List.replicate_succ, format_cons, List.length_append, ih, Nat.add_comm]; rfl
  rw [length] at short
  exact absurd short (Nat.lt_irrefl _)

end Neutrino.Text
