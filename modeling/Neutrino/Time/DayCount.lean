import Neutrino.Library.Gregorian
import Neutrino.Time.Calendar

namespace Neutrino.Calendar

open Library

/-- A date of the calendar since 1970, and a time of the day. -/
structure DateTime.Proper (d : DateTime) : Prop where
  date : Gregorian.Valid d.date.year.toNat d.date.month.toNat d.date.day.toNat
  since : 1970 ≤ d.date.year.toNat
  hour : d.time.hour.toNat < 24
  minute : d.time.minute.toNat < 60
  second : d.time.second.toNat < 60

def DateTime.days (d : DateTime) : Nat := Gregorian.dayNumber d.date.year.toNat d.date.month.toNat d.date.day.toNat

def DateTime.seconds (d : DateTime) : Nat :=
  86400 * d.days + 3600 * d.time.hour.toNat + 60 * d.time.minute.toNat + d.time.second.toNat

def DateTime.fields (d : DateTime) : List Nat :=
  [d.date.year.toNat, d.date.month.toNat, d.date.day.toNat, d.time.hour.toNat, d.time.minute.toNat, d.time.second.toNat]

/-- The lexicographic order. -/
def DateTime.Before (d d' : DateTime) : Prop := List.Lex (· < ·) d.fields d'.fields

section Loops

theorem timesSecondsPerMinute_ofNat (n : Nat) : timesSecondsPerMinute (BitVec.ofNat 64 n) = BitVec.ofNat 64 (60 * n) := by
  change BitVec.ofNat 64 n * BitVec.ofNat 64 60 = _
  rw [← BitVec.ofNat_mul, Nat.mul_comm]

theorem timesSecondsPerHour_ofNat (n : Nat) : timesSecondsPerHour (BitVec.ofNat 64 n) = BitVec.ofNat 64 (3600 * n) := by
  change BitVec.ofNat 64 n * BitVec.ofNat 64 60 * BitVec.ofNat 64 60 = _
  rw [← BitVec.ofNat_mul, ← BitVec.ofNat_mul, Nat.mul_assoc, Nat.mul_comm]

theorem timesSecondsPerDay_ofNat (n : Nat) : timesSecondsPerDay (BitVec.ofNat 64 n) = BitVec.ofNat 64 (86400 * n) := by
  change BitVec.ofNat 64 n * BitVec.ofNat 64 60 * BitVec.ofNat 64 60 * BitVec.ofNat 64 24 = _
  rw [← BitVec.ofNat_mul, ← BitVec.ofNat_mul, ← BitVec.ofNat_mul, Nat.mul_assoc, Nat.mul_assoc, Nat.mul_comm]

theorem isLeapYear_eq (year : W64) : isLeapYear year = Gregorian.leap year.toNat := by
  simp only [isLeapYear, Gregorian.leap, BitVec.toNat_eq, bne, BEq.beq]
  simp

theorem daysPerYear_ofNat (year : W64) :
    daysPerYear (isLeapYear year) = BitVec.ofNat 64 (Gregorian.yearLength year.toNat) := by
  rw [isLeapYear_eq, daysPerYear, Gregorian.yearLength]
  split <;> rfl

theorem daysPerMonth_ofNat (beyond : W64 → W32) (year : W64) {month : Nat} (inside : month < 12) :
    daysPerMonth beyond (isLeapYear year) (BitVec.ofNat 64 month) =
      BitVec.ofNat 64 (Gregorian.monthLength year.toNat (month + 1)) := by
  rw [isLeapYear_eq, Gregorian.monthLength]
  cases Gregorian.leap year.toNat <;> interval_cases month <;> rfl

theorem years_loop {year count : Nat} (positive : 1 ≤ year) (small : year + count ≤ 2 ^ 64) (sum : Nat) :
    (List.range' year count).foldl (fun res year =>
      res + timesSecondsPerDay (daysPerYear (isLeapYear (BitVec.ofNat 64 year)))) (BitVec.ofNat 64 sum) =
    BitVec.ofNat 64 (sum + 86400 * (Gregorian.marchDay (year + count) 1 1 - Gregorian.marchDay year 1 1)) := by
  induction count generalizing year sum with
  | zero => simp
  | succ count ih =>
    have here : (BitVec.ofNat 64 year).toNat = year := by
      rw [BitVec.toNat_ofNat, Nat.mod_eq_of_lt (by omega)]
    have next := Gregorian.marchDay_next_year positive
    have later : Gregorian.marchDay (year + 1) 1 1 ≤ Gregorian.marchDay (year + 1 + count) 1 1 :=
      Gregorian.marchDay_year_le (Nat.le_add_right _ _)
    have rounds : year + (count + 1) = year + 1 + count := by omega
    rw [List.range'_succ, List.foldl_cons, daysPerYear_ofNat, here, timesSecondsPerDay_ofNat, ← BitVec.ofNat_add,
      ih (by omega) (by omega), rounds]
    apply congrArg (BitVec.ofNat 64)
    omega

theorem months_loop (beyond : W64 → W32) {year : W64} (positive : 1 ≤ year.toNat) {count : Nat} (inside : count < 12)
    (sum : Nat) :
    (List.range count).foldl (fun res month =>
      res + timesSecondsPerDay (daysPerMonth beyond (isLeapYear year) (BitVec.ofNat 64 month))) (BitVec.ofNat 64 sum) =
    BitVec.ofNat 64 (sum + 86400 * (Gregorian.marchDay year.toNat (count + 1) 1 - Gregorian.marchDay year.toNat 1 1)) := by
  induction count with
  | zero => simp
  | succ count ih =>
    have next : Gregorian.marchDay year.toNat (count + 1 + 1) 1 = _ :=
      Gregorian.marchDay_next_month positive (Nat.le_add_left 1 count) inside
    have later : Gregorian.marchDay year.toNat 1 1 ≤ Gregorian.marchDay year.toNat (count + 1) 1 :=
      Gregorian.marchDay_month_le positive (Nat.le_refl 1) (Nat.le_add_left 1 count) (by omega)
    rw [List.range_succ, List.foldl_append, ih (by omega), List.foldl_cons, List.foldl_nil,
      daysPerMonth_ofNat beyond year (by omega), timesSecondsPerDay_ofNat, ← BitVec.ofNat_add]
    apply congrArg (BitVec.ofNat 64)
    omega

end Loops

section Conversion

variable {beyond : W64 → W32} {d d' : DateTime}

theorem datetimeToTimestamp_ofNat (proper : d.Proper) : datetimeToTimestamp beyond d = BitVec.ofNat 64 d.seconds := by
  obtain ⟨valid, since, -, -, -⟩ := proper
  have bound := d.date.year.isLt
  have epoch : epochYear.toNat = 1970 := rfl
  have rest : 1970 + (d.date.year.toNat - 1970) = d.date.year.toNat := by omega
  have years := @years_loop 1970 (d.date.year.toNat - 1970) (by decide) (by omega) 0
  have less (x : W64) (positive : 1 ≤ x.toNat) : x - 1 = BitVec.ofNat 64 (x.toNat - 1) := by
    apply BitVec.eq_of_toNat_eq
    have width := x.isLt
    rw [BitVec.toNat_sub, BitVec.toNat_ofNat]
    change (2 ^ 64 - 1 + x.toNat) % 2 ^ 64 = _
    omega
  have first := valid.first
  have last := valid.last
  have month : (d.date.month - 1).toNat = d.date.month.toNat - 1 := by
    rw [less _ first, BitVec.toNat_ofNat, Nat.mod_eq_of_lt (by omega)]
  have back : d.date.month.toNat - 1 + 1 = d.date.month.toNat := by omega
  have start := Gregorian.marchDay_year_le since
  have monthStart := Gregorian.marchDay_month_le valid.positive (Nat.le_refl 1) first last
  rw [rest, Nat.zero_add] at years
  have self (x : W64) : BitVec.ofNat 64 x.toNat = x := BitVec.ofNat_toNat 64 x |>.trans (BitVec.setWidth_eq x)
  rw [datetimeToTimestamp, epoch]
  change (List.foldl _ (List.foldl _ (BitVec.ofNat 64 0) _) _) + _ + _ + _ + _ = _
  rw [years, month, months_loop beyond valid.positive (by omega), back, less _ valid.begins, ← self d.time.hour,
    ← self d.time.minute, ← self d.time.second, timesSecondsPerDay_ofNat, timesSecondsPerHour_ofNat,
    timesSecondsPerMinute_ofNat, ← BitVec.ofNat_add, ← BitVec.ofNat_add, ← BitVec.ofNat_add, ← BitVec.ofNat_add]
  apply congrArg (BitVec.ofNat 64)
  rw [DateTime.seconds, DateTime.days, Gregorian.dayNumber, Gregorian.marchDay_day valid.begins]
  omega

theorem datetimeToTimestamp_toNat (proper : d.Proper) (fits : d.seconds < 2 ^ 64) :
    (datetimeToTimestamp beyond d).toNat = d.seconds := by
  rw [datetimeToTimestamp_ofNat proper, BitVec.toNat_ofNat, Nat.mod_eq_of_lt fits]

theorem lex_cons_cons_iff {x y : Nat} {xs ys : List Nat} :
    List.Lex (· < ·) (x :: xs) (y :: ys) ↔ x < y ∨ x = y ∧ List.Lex (· < ·) xs ys := by
  constructor
  · intro lex
    cases lex with
    | rel less => exact .inl less
    | cons rest => exact .inr ⟨rfl, rest⟩
  · rintro (less | ⟨rfl, rest⟩)
    · exact .rel less
    · exact .cons rest

theorem before_iff : d.Before d' ↔
    (d.date.year.toNat < d'.date.year.toNat ∨ d.date.year.toNat = d'.date.year.toNat ∧
      (d.date.month.toNat < d'.date.month.toNat ∨ d.date.month.toNat = d'.date.month.toNat ∧
        d.date.day.toNat < d'.date.day.toNat)) ∨
    (d.date.year.toNat = d'.date.year.toNat ∧ d.date.month.toNat = d'.date.month.toNat ∧
      d.date.day.toNat = d'.date.day.toNat) ∧
      (d.time.hour.toNat < d'.time.hour.toNat ∨ d.time.hour.toNat = d'.time.hour.toNat ∧
        (d.time.minute.toNat < d'.time.minute.toNat ∨ d.time.minute.toNat = d'.time.minute.toNat ∧
          d.time.second.toNat < d'.time.second.toNat)) := by
  simp only [DateTime.Before, DateTime.fields, lex_cons_cons_iff, List.not_lex_nil]
  tauto

theorem seconds_lt (proper : d.Proper) (proper' : d'.Proper) (before : d.Before d') : d.seconds < d'.seconds := by
  obtain ⟨valid, since, hour, minute, second⟩ := proper
  obtain ⟨valid', since', hour', minute', second'⟩ := proper'
  rw [DateTime.seconds, DateTime.seconds]
  rcases before_iff.mp before with earlier | ⟨⟨year, month, day⟩, earlier⟩
  · have later := valid.marchDay_lt valid' earlier
    have start := valid.since since
    have days : d.days < d'.days := by
      rw [DateTime.days, DateTime.days, Gregorian.dayNumber, Gregorian.dayNumber]
      omega
    omega
  · have days : d.days = d'.days := by rw [DateTime.days, DateTime.days, year, month, day]
    omega

theorem seconds_injective (proper : d.Proper) (proper' : d'.Proper) (same : d.seconds = d'.seconds) : d = d' := by
  have notBefore : ¬ d.Before d' := fun before => Nat.ne_of_lt (seconds_lt proper proper' before) same
  have notAfter : ¬ d'.Before d := fun after => Nat.ne_of_lt (seconds_lt proper' proper after) same.symm
  rw [before_iff] at notBefore notAfter
  rcases d with ⟨⟨day, month, year⟩, ⟨second, minute, hour⟩⟩
  rcases d' with ⟨⟨day', month', year'⟩, ⟨second', minute', hour'⟩⟩
  simp only [DateTime.mk.injEq, Date.mk.injEq, Time.mk.injEq, ← BitVec.toNat_inj]
  simp only at notBefore notAfter
  omega

theorem datetime_to_timestamp_exact (beyond : W64 → W32) :
    (∀ d : DateTime, d.Proper → d.seconds < 2 ^ 64 → (datetimeToTimestamp beyond d).toNat = d.seconds) ∧
    (∀ d d' : DateTime, d.Proper → d'.Proper → d.seconds < 2 ^ 64 → d'.seconds < 2 ^ 64 → d.Before d' →
      datetimeToTimestamp beyond d < datetimeToTimestamp beyond d') ∧
    ∀ d d' : DateTime, d.Proper → d'.Proper → d.seconds < 2 ^ 64 → d'.seconds < 2 ^ 64 →
      datetimeToTimestamp beyond d = datetimeToTimestamp beyond d' → d = d' := by
  refine ⟨fun d => datetimeToTimestamp_toNat, ?_, ?_⟩
  · intro d d' proper proper' fits fits' before
    rw [BitVec.lt_def, datetimeToTimestamp_toNat proper fits, datetimeToTimestamp_toNat proper' fits']
    exact seconds_lt proper proper' before
  · intro d d' proper proper' fits fits' same
    have numbers := congrArg BitVec.toNat same
    rw [datetimeToTimestamp_toNat proper fits, datetimeToTimestamp_toNat proper' fits'] at numbers
    exact seconds_injective proper proper' numbers

end Conversion

def leapNoon : DateTime := ⟨⟨29, 2, 2000⟩, ⟨0, 0, 12⟩⟩

theorem datetime_to_timestamp_leap_noon :
    leapNoon.Proper ∧ (datetimeToTimestamp (fun _ => 0) leapNoon).toNat = 951825600 := by
  have proper : leapNoon.Proper :=
    ⟨⟨by decide, by decide, by decide, by decide, by decide⟩, by decide, by decide, by decide, by decide⟩
  have seconds : leapNoon.seconds = 951825600 := by decide
  have fits : leapNoon.seconds < 2 ^ 64 := by rw [seconds]; decide
  exact ⟨proper, ((datetime_to_timestamp_exact fun _ => 0).1 leapNoon proper fits).trans seconds⟩

end Neutrino.Calendar
