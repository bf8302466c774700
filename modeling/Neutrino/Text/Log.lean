import Neutrino.Text.Rendering

namespace Neutrino.Text

open Library

/-- What a call of `sys_log` should do with a message. -/
structure Verbatim (msg : CString) (logged : Logged) : Prop where
  output : logged.output = logTag ++ msg.bytes ++ newline
  inside : logged.buffer.length ≤ 2048
  taken : logged.taken = 0
  passed : ∀ a, .address a ∉ logged.passed

section Taken

variable {memory : W64 → Chars} {args : Nat → W64} {istr : Chars} {p : Printer} {fuel : Nat} {i : W32}

theorem putString_taken (str : Chars) : Ensures p (putString str) fun _ p' => p'.taken = p.taken := by
  intro _ p' taken
  simp only [putString] at taken
  obtain ⟨length, -, done⟩ := Option.bind_eq_some_iff.mp taken
  cases done
  rfl

theorem converted_taken (size : Nat) (code : ScratchM (List Byte)) :
    Ensures p (converted size code) fun _ p' => p'.taken = p.taken := by
  intro str p' taken
  obtain ⟨written, p1, moved, rest⟩ := bind_some taken
  obtain ⟨done, -, same⟩ := Option.map_eq_some_iff.mp moved
  cases same
  split at rest
  · cases rest
    rfl
  · cases rest

theorem directive_taken (c : Byte) : Ensures p (directive memory args c) fun known p' =>
    known = true → p'.taken = p.taken + 1 := by
  have arg : Ensures p (vaArg args) fun _ p' => p'.taken = p.taken + 1 := by
    intro _ p' taken
    cases taken
    rfl
  have finish : ∀ str (p1 : Printer), p1.taken = p.taken + 1 → Ensures p1 (do putString str; return true) fun known p' =>
      known = true → p'.taken = p.taken + 1 := by
    intro str p1 count
    refine (putString_taken str).bind ?_
    intro _ p2 same
    exact .pure fun _ => same.trans count
  have number : ∀ size code (p1 : Printer), p1.taken = p.taken + 1 →
      Ensures p1 (do let str ← converted size code; putString str; return true) fun known p' =>
        known = true → p'.taken = p.taken + 1 := by
    intro size code p1 count
    refine (converted_taken size code).bind ?_
    intro str p2 same
    exact finish str p2 (same.trans count)
  rw [directive]
  split
  · exact arg.bind fun c p1 count => finish _ p1 count
  split
  · exact arg.bind fun c p1 count => number _ _ p1 count
  split
  · exact arg.bind fun c p1 count => number _ _ p1 count
  split
  · refine arg.bind fun c p1 count => (converted_taken _ _).bind fun str p2 same => ?_
    exact finish str { p2 with buffer := p2.buffer ++ [0x30#8] ++ [0x78#8] } (same.trans count)
  split
  · exact arg.bind fun c p1 count => number _ _ p1 count
  · exact .pure nofun

theorem vstrfLoop_taken : Ensures p (vstrfLoop memory args istr fuel i) fun result p' =>
    result = .buffer → p.taken ≤ p'.taken := by
  induction fuel generalizing i p with
  | zero => exact .of_none rfl
  | succ fuel ih =>
    rw [vstrfLoop]
    split
    · intro _ _ taken _
      cases taken
      exact Nat.le_refl _
    split
    · refine (directive_taken _).bind ?_
      intro known p1 count
      cases known with
      | false =>
        apply Ensures.pure
        intro buffer
        cases buffer
      | true =>
        refine Ensures.mono ih ?_
        intro result p' later buffer
        have first := count rfl
        have rest := later buffer
        omega
    · intro result p' taken
      exact @ih { p with buffer := p.buffer ++ [istr i.toNat] } (i + 1#32) result p' taken

theorem vstrfLoop_copies {p' : Printer} (run : vstrfLoop memory args istr fuel i p = some (.buffer, p'))
    (none : p'.taken = p.taken) :
    ∃ n, (∀ j < n, istr (i + BitVec.ofNat 32 j).toNat ≠ 0#8 ∧ istr (i + BitVec.ofNat 32 j).toNat ≠ 0x25#8) ∧
      istr (i + BitVec.ofNat 32 n).toNat = 0#8 ∧
      p'.buffer = p.buffer ++ (List.range n).map (fun j => istr (i + BitVec.ofNat 32 j).toNat) ++ [0#8] := by
  induction fuel generalizing i p with
  | zero => cases run
  | succ fuel ih =>
    by_cases zero : istr i.toNat = 0#8
    · rw [vstrfLoop_end zero] at run
      cases run
      exact ⟨0, nofun, by simpa using zero, by simp⟩
    by_cases percent : istr i.toNat = 0x25#8
    · rw [vstrfLoop_directive percent] at run
      obtain ⟨known, p1, first, rest⟩ := bind_some run
      have count := directive_taken _ known p1 first
      cases known with
      | false => cases rest
      | true =>
        have later := vstrfLoop_taken _ _ rest rfl
        have one := count rfl
        omega
    · rw [vstrfLoop_literal rfl ⟨zero, percent⟩] at run
      obtain ⟨n, plain, last, buffer⟩ := ih run none
      have shift : ∀ j, i + 1#32 + BitVec.ofNat 32 j = i + BitVec.ofNat 32 (j + 1) := by
        intro j
        rw [BitVec.add_assoc, Nat.add_comm j 1, BitVec.ofNat_add]
      simp only [shift] at plain last buffer
      refine ⟨n + 1, ?_, last, ?_⟩
      · intro j below
        cases j with
        | zero => simpa using ⟨zero, percent⟩
        | succ j => exact plain j (by omega)
      · rw [buffer, List.range_succ_eq_map, List.map_cons, List.map_map, BitVec.add_zero]
        simp [Function.comp_def]

end Taken

section Messages

variable {memory : W64 → Chars} {args : Nat → W64} {tbuf : Tbuf} {s : List Byte}

theorem exists_literals (proper : 0#8 ∉ s) (plain : 0x25#8 ∉ s) (strings : W64 → CString) : ∃ pieces,
    format pieces = s ∧ rendering strings pieces = s ∧ argsCount pieces = 0 ∧ ShortStrings strings pieces ∧
      Matching memory args strings 0 pieces := by
  induction s with
  | nil => exact ⟨[], rfl, rfl, rfl, nofun, trivial⟩
  | cons c s ih =>
    have ⟨other, proper⟩ := not_or.mp (mt List.mem_cons.mpr proper)
    have ⟨other', plain⟩ := not_or.mp (mt List.mem_cons.mpr plain)
    obtain ⟨pieces, text, shown, count, short, matching⟩ := ih proper plain
    refine ⟨.literal c ⟨Ne.symm other, Ne.symm other'⟩ :: pieces, ?_, ?_, count, ?_, matching⟩
    · rw [format_cons, text]
      rfl
    · rw [rendering, List.flatMap_cons, ← rendering, shown]
      rfl
    · intro a member
      rcases List.mem_cons.mp member with same | later
      · cases same
      · exact short a later

theorem serialWriteString_chars (proper : 0#8 ∉ s) (short : s.length < 2 ^ 31) :
    serialWriteString (chars s) = some s := by
  simp only [serialWriteString, strlen_chars proper, if_pos short, Option.bind_eq_bind, Option.bind_some, map_chars]
  rfl

theorem vstrf_plain (proper : 0#8 ∉ s) (plain : 0x25#8 ∉ s) (short : s.length < 2 ^ 32) :
    ∃ fuel, Yields ⟨tbuf, [], 0⟩ (vstrf memory args fuel (some (chars s))) fun result p =>
      result = .buffer ∧ p.buffer = s ++ [0#8] ∧ p.taken = 0 := by
  obtain ⟨pieces, text, shown, count, strings, matching⟩ :=
    @exists_literals memory args s proper plain fun _ => ⟨[], List.not_mem_nil⟩
  have start := format_start (format pieces)
  have fits : (0#32).toNat + (format pieces).length < 2 ^ 32 := by
    rw [text]
    simpa using short
  refine ⟨pieces.length + 1, ?_⟩
  have run := @vstrfLoop_yields memory args _ _ ⟨tbuf, [], 0⟩ pieces _ 0#32 matching strings start fits
    (Nat.lt_succ_self _)
  rw [text] at run
  refine run.mono ?_
  intro result p done
  rw [shown, count] at done
  exact done

theorem klog_eq (fuel : Nat) (message : Option Chars) : klog memory fuel args tbuf message =
    (vstrf memory args fuel message ⟨tbuf, [], 0⟩).bind fun done =>
      (helper memory done.2.buffer done.1.passed).bind fun second =>
        some ⟨logTag ++ second ++ newline, done.2.buffer, done.2.taken,
          [.literal logTag, done.1.passed, .literal newline]⟩ := by
  have tag : helper memory [] (.literal logTag) = some logTag := serialWriteString_chars (by decide) (by decide)
  have line : helper memory [] (.literal newline) = some newline := serialWriteString_chars (by decide) (by decide)
  simp only [klog, tag, line, Option.bind_eq_bind, Option.bind_some]
  rfl

theorem vstrf_copied {fuel : Nat} {p : Printer} (proper : 0#8 ∉ s)
    (run : vstrf memory args fuel (some (chars s)) ⟨tbuf, [], 0⟩ = some (.buffer, p)) (none : p.taken = 0) :
    0x25#8 ∉ s ∧ p.buffer = s ++ [0#8] := by
  have whole := vstrf_terminated proper _ _ run rfl
  obtain ⟨n, plain, last, buffer⟩ := vstrfLoop_copies run none
  simp only [BitVec.zero_add, BitVec.toNat_ofNat] at plain last buffer
  have inside : ∀ j (below : j < s.length), chars s j = s[j] := by
    intro j below
    rw [chars, List.getD_eq_getElem?_getD, List.getElem?_eq_getElem below]
    rfl
  have ended : ∀ j < 2 ^ 32, chars s j = 0#8 ↔ s.length ≤ j := by
    intro j _
    constructor
    · intro zero
      by_contra below
      rw [inside j (by omega)] at zero
      exact proper (zero ▸ List.getElem_mem _)
    · intro above
      rw [chars, List.getD_eq_getElem?_getD, List.getElem?_eq_none above]
      rfl
  have small : n < 2 ^ 32 := by
    by_contra large
    exact (plain (n % 2 ^ 32) (by omega)).1 (by rw [Nat.mod_mod]; exact last)
  have length : n = s.length := by
    rw [Nat.mod_eq_of_lt small] at last
    have above := (ended n small).mp last
    by_contra other
    apply (plain s.length (by omega)).1
    rw [Nat.mod_eq_of_lt whole]
    exact (ended s.length whole).mpr (Nat.le_refl _)
  subst length
  constructor
  · intro member
    obtain ⟨j, below, same⟩ := List.getElem_of_mem member
    apply (plain j below).2
    rw [Nat.mod_eq_of_lt (by omega), inside j below, same]
  · have copied : (List.range s.length).map (fun j => chars s (j % 2 ^ 32)) = (List.range s.length).map (chars s) := by
      apply List.map_congr_left
      intro j member
      have below := List.mem_range.mp member
      rw [Nat.mod_eq_of_lt (by omega)]
    rw [buffer, copied, map_chars]
    rfl

theorem Verbatim.plain {fuel : Nat} {msg : CString} {logged : Logged} (verbatim : Verbatim msg logged)
    (taken : sysLog memory fuel args tbuf (some (chars msg.bytes)) = some (.success, some logged)) :
    0x25#8 ∉ msg.bytes ∧ msg.bytes.length ≤ 2047 := by
  obtain ⟨logged', written, same⟩ := Option.map_eq_some_iff.mp taken
  cases same
  rw [klog_eq] at written
  obtain ⟨⟨result, p⟩, run, rest⟩ := Option.bind_eq_some_iff.mp written
  obtain ⟨second, -, final⟩ := Option.bind_eq_some_iff.mp rest
  cases final
  have ⟨_, inside, untaken, passed⟩ := verbatim
  have buffer : result = .buffer := by
    cases result with
    | null => exact absurd (List.mem_cons_of_mem _ List.mem_cons_self) (passed 0#64)
    | one => exact absurd (List.mem_cons_of_mem _ List.mem_cons_self) (passed 1#64)
    | buffer => rfl
  subst buffer
  have ⟨plain, copied⟩ := vstrf_copied msg.proper run untaken
  refine ⟨plain, ?_⟩
  replace inside : p.buffer.length ≤ 2048 := inside
  rw [copied, List.length_append, List.length_singleton] at inside
  omega

end Messages

/-- The message comes out as it is exactly if it has no `%` and fits into the buffer of `klog`. -/
theorem sysLog_verbatim_iff (memory : W64 → Chars) (args : Nat → W64) (tbuf : Tbuf) (msg : CString) :
    (∃ fuel logged, sysLog memory fuel args tbuf (some (chars msg.bytes)) = some (.success, some logged) ∧
      Verbatim msg logged) ↔ 0x25#8 ∉ msg.bytes ∧ msg.bytes.length ≤ 2047 := by
  constructor
  · rintro ⟨fuel, logged, taken, verbatim⟩
    exact verbatim.plain taken
  · rintro ⟨plain, short⟩
    obtain ⟨fuel, result, p, run, rfl, buffer, count⟩ :=
      @vstrf_plain memory args tbuf _ msg.proper plain (by omega)
    have shown : helper memory p.buffer .buffer = some msg.bytes := by
      show serialWriteString (chars p.buffer) = some msg.bytes
      rw [buffer, chars_terminated, serialWriteString_chars msg.proper (by omega)]
    refine ⟨fuel, ⟨logTag ++ msg.bytes ++ newline, p.buffer, p.taken,
      [.literal logTag, .buffer, .literal newline]⟩, ?_, rfl, ?_, count, ?_⟩
    · rw [sysLog, klog_eq, run, Option.bind_some, Returned.passed, shown]
      rfl
    · rw [buffer, List.length_append, List.length_singleton]
      omega
    · intro a member
      simp at member

/-- The message `100%`, for which the pointer 1 is passed to the helper. -/
theorem percent_not_verbatim : ¬ ∃ fuel logged,
    sysLog (fun _ => chars []) fuel (fun _ => 0#64) (Vector.replicate 32 0#8)
      (some (chars [0x31#8, 0x30#8, 0x30#8, 0x25#8])) = some (.success, some logged) ∧
    Verbatim ⟨[0x31#8, 0x30#8, 0x30#8, 0x25#8], by decide⟩ logged := by
  rintro ⟨fuel, logged, taken, verbatim⟩
  exact absurd (verbatim.plain taken).1 (by decide)

end Neutrino.Text
