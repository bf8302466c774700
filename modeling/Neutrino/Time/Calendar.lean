import Neutrino.Machine.Word

namespace Neutrino.Calendar

structure Time where
  second : W64
  minute : W64
  hour : W64
deriving DecidableEq

structure Date where
  day : W64
  month : W64
  year : W64
deriving DecidableEq

/-- The two views of the union `DateTime` have the same fields in the same order. -/
structure DateTime where
  date : Date
  time : Time
deriving DecidableEq

-- `SECONDS_PER_HOUR` stands for the text `60*60` and `SECONDS_PER_DAY` for `60*60*24`, without
-- parentheses: after a division only the first factor divides.
def overSecondsPerMinute (x : W64) : W64 := x / 60
def overSecondsPerHour (x : W64) : W64 := x / 60 * 60
def overSecondsPerDay (x : W64) : W64 := x / 60 * 60 * 24
def timesSecondsPerMinute (x : W64) : W64 := x * 60
def timesSecondsPerHour (x : W64) : W64 := x * 60 * 60
def timesSecondsPerDay (x : W64) : W64 := x * 60 * 60 * 24

def epochYear : W64 := 1970

def isLeapYear (year : W64) : Bool := (year % 4 == 0 && year % 100 != 0) || year % 400 == 0

def daysPerYear (leap : Bool) : W64 := if leap then 366 else 365

/-- The twenty-four `int`s of the array `DAYS_PER_MONTH`, row after row. -/
def daysPerMonthRows : List W32 :=
  [31, 28, 31, 30, 31, 30, 31, 31, 30, 31, 30, 31,
   31, 29, 31, 30, 31, 30, 31, 31, 30, 31, 30, 31]

/-- An index past the end of the array reads what lies `beyond` it. The `int` is converted to the
    type of the 64-bit operand next to it. -/
def daysPerMonth (beyond : W64 → W32) (leap : Bool) (month : W64) : W64 :=
  let index := (if leap then 12 else 0) + month
  ((daysPerMonthRows[index.toNat]?).getD (beyond index)).signExtend 64

/-- The first loop of `timestamp_to_date`; `none` when the iterations run out. The difference is
    unsigned, so that it is positive whenever it is not zero. -/
def yearLoop : (fuel : Nat) → (days year : W64) → Option (W64 × W64)
  | 0, _, _ => none
  | fuel + 1, days, year =>
    if days - daysPerYear (isLeapYear year) > 0 then
      yearLoop fuel (days - daysPerYear (isLeapYear year)) (year + 1)
    else some (days, year)

/-- The second loop. -/
def monthLoop (beyond : W64 → W32) (year : W64) : (fuel : Nat) → (days month : W64) → Option (W64 × W64)
  | 0, _, _ => none
  | fuel + 1, days, month =>
    if days - daysPerMonth beyond (isLeapYear year) month ≥ 0 then
      monthLoop beyond year fuel (days - daysPerMonth beyond (isLeapYear year) month) (month + 1)
    else some (days, month)

def timestampToDate (beyond : W64 → W32) (fuel : Nat) (timestamp : W64) : Option Date := do
  let (days, year) ← yearLoop fuel (overSecondsPerDay timestamp) epochYear
  let (days, month) ← monthLoop beyond year fuel days 0
  return ⟨days + 1, month + 1, year⟩

def timestampToTime (timestamp : W64) : Time where
  second := timestamp % 60
  minute := overSecondsPerMinute timestamp % 60
  hour := overSecondsPerHour timestamp % 24

def timestampToDatetime (beyond : W64 → W32) (fuel : Nat) (timestamp : W64) : Option DateTime := do
  return ⟨← timestampToDate beyond fuel timestamp, timestampToTime timestamp⟩

def datetimeToTimestamp (beyond : W64 → W32) (datetime : DateTime) : W64 :=
  let date := datetime.date
  let res : W64 := (List.range' epochYear.toNat (date.year.toNat - epochYear.toNat)).foldl
    (fun res year => res + timesSecondsPerDay (daysPerYear (isLeapYear (BitVec.ofNat 64 year)))) 0
  let res := (List.range (date.month - 1).toNat).foldl
    (fun res month => res + timesSecondsPerDay
      (daysPerMonth beyond (isLeapYear date.year) (BitVec.ofNat 64 month))) res
  res + timesSecondsPerDay (date.day - 1) + timesSecondsPerHour datetime.time.hour +
    timesSecondsPerMinute datetime.time.minute + datetime.time.second

/-- A date of the calendar and a time of the day. -/
def DateTime.Valid (beyond : W64 → W32) (d : DateTime) : Prop :=
  1 ≤ d.date.month ∧ d.date.month ≤ 12 ∧ 1 ≤ d.date.day ∧
    d.date.day ≤ daysPerMonth beyond (isLeapYear d.date.year) (d.date.month - 1) ∧
    d.time.hour < 24 ∧ d.time.minute < 60 ∧ d.time.second < 60

theorem monthLoop_endless (beyond : W64 → W32) (year days month : W64) (fuel : Nat) :
    monthLoop beyond year fuel days month = none := by
  induction fuel generalizing days month with
  | zero => rfl
  | succ fuel ih =>
    have always : days - daysPerMonth beyond (isLeapYear year) month ≥ 0 := by
      rw [ge_iff_le, BitVec.le_def]
      exact Nat.zero_le _
    rw [monthLoop, if_pos always, ih]

theorem timestampToDatetime_endless (beyond : W64 → W32) (fuel : Nat) (timestamp : W64) :
    timestampToDatetime beyond fuel timestamp = none := by
  unfold timestampToDatetime timestampToDate
  cases yearLoop fuel (overSecondsPerDay timestamp) epochYear with
  | none => rfl
  | some found =>
    simp only [Option.bind_eq_bind, Option.bind_some, monthLoop_endless, Option.bind_none]

/-- The conversion of a timestamp comes back with the date and time that it stands for. -/
def Recovers (beyond : W64 → W32) (timestamp : W64) : Prop :=
  ∃ fuel datetime, timestampToDatetime beyond fuel timestamp = some datetime ∧ datetime.Valid beyond ∧
    datetimeToTimestamp beyond datetime = timestamp

/-- The conversion of a date and time and back comes back with the same. -/
def Restores (beyond : W64 → W32) (datetime : DateTime) : Prop :=
  ∃ fuel, timestampToDatetime beyond fuel (datetimeToTimestamp beyond datetime) = some datetime

theorem calendar_never_round_trips (beyond : W64 → W32) :
    (∀ timestamp, Recovers beyond timestamp ↔ False) ∧
    ∀ datetime : DateTime, datetime.Valid beyond ∧ epochYear ≤ datetime.date.year →
      (Restores beyond datetime ↔ False) := by
  constructor
  · intro timestamp
    refine ⟨?_, False.elim⟩
    rintro ⟨fuel, datetime, taken, -⟩
    rw [timestampToDatetime_endless] at taken
    cases taken
  · intro datetime _
    refine ⟨?_, False.elim⟩
    rintro ⟨fuel, taken⟩
    rw [timestampToDatetime_endless] at taken
    cases taken

/-- Midnight of the first day. -/
def epoch : DateTime := ⟨⟨1, 1, 1970⟩, ⟨0, 0, 0⟩⟩

theorem calendar_never_round_trips_epoch :
    (epoch.Valid (fun _ => 0) ∧ epochYear ≤ epoch.date.year) ∧ (Restores (fun _ => 0) epoch ↔ False) := by
  have valid : epoch.Valid (fun _ => 0) ∧ epochYear ≤ epoch.date.year := by
    unfold DateTime.Valid
    decide
  exact ⟨valid, (calendar_never_round_trips fun _ => 0).2 epoch valid⟩

theorem epoch_never_converted : datetimeToTimestamp (fun _ => 0) epoch = 0 ∧
    ∀ fuel, timestampToDatetime (fun _ => 0) fuel 0 = none :=
  ⟨by decide, fun fuel => timestampToDatetime_endless _ fuel 0⟩

end Neutrino.Calendar
