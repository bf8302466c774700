import Mathlib.Tactic.IntervalCases

namespace Library.Gregorian

def leap (year : Nat) : Bool := (year % 4 == 0 && year % 100 != 0) || year % 400 == 0

def yearLength (year : Nat) : Nat := if leap year then 366 else 365

/-- The months count from one. -/
def monthLength (year month : Nat) : Nat :=
  if month = 2 then if leap year then 29 else 28
  else if month = 4 ∨ month = 6 ∨ month = 9 ∨ month = 11 then 30 else 31

/-- The days of the years up to and with the given one. -/
def daysThrough (year : Nat) : Nat := 365 * year + year / 4 - year / 100 + year / 400

/-- The days from the first of March of the year 0 on, in closed form: the year is taken to begin in
    March, so that the leap day is its last. -/
def marchDay (year month day : Nat) : Nat :=
  daysThrough (if month ≤ 2 then year - 1 else year) + (153 * ((month + 9) % 12) + 2) / 5 + day - 1

/-- The days from the first of January 1970 on. -/
def dayNumber (year month day : Nat) : Nat := marchDay year month day - marchDay 1970 1 1

theorem leap_iff (year : Nat) : leap year = true ↔ year % 4 = 0 ∧ year % 100 ≠ 0 ∨ year % 400 = 0 := by
  simp [leap]

theorem daysThrough_succ (year : Nat) : daysThrough (year + 1) = daysThrough year + yearLength (year + 1) := by
  have rule := leap_iff (year + 1)
  have fourth : (year + 1) / 4 = year / 4 + if (year + 1) % 4 = 0 then 1 else 0 := by split <;> omega
  have century : (year + 1) / 100 = year / 100 + if (year + 1) % 100 = 0 then 1 else 0 := by split <;> omega
  have cycle : (year + 1) / 400 = year / 400 + if (year + 1) % 400 = 0 then 1 else 0 := by split <;> omega
  have few : year / 100 ≤ year / 4 := by omega
  rw [daysThrough, daysThrough, yearLength, fourth, century, cycle]
  by_cases isLeap : leap (year + 1) = true
  · rw [if_pos isLeap]
    rcases rule.mp isLeap with ⟨by4, by100⟩ | by400
    · rw [if_pos by4, if_neg by100, if_neg (by omega)]
      omega
    · rw [if_pos (by omega), if_pos (by omega), if_pos by400]
      omega
  · rw [if_neg isLeap]
    have common : ¬ (year + 1) % 4 = 0 ∨ (year + 1) % 100 = 0 ∧ ¬ (year + 1) % 400 = 0 := by
      rw [rule] at isLeap
      omega
    rcases common with by4 | ⟨by100, by400⟩
    · rw [if_neg by4, if_neg (by omega), if_neg (by omega)]
      omega
    · rw [if_pos (by omega), if_pos by100, if_neg by400]
      omega

theorem daysThrough_mono {year later : Nat} (le : year ≤ later) : daysThrough year ≤ daysThrough later := by
  induction le with
  | refl => exact Nat.le_refl _
  | step _ ih => exact Nat.le_trans ih (by rw [daysThrough_succ]; exact Nat.le_add_right _ _)

section Days

variable {year month day : Nat}

theorem marchDay_next_year (positive : 1 ≤ year) : marchDay (year + 1) 1 1 = marchDay year 1 1 + yearLength year := by
  obtain ⟨before, rfl⟩ : ∃ before, year = before + 1 := ⟨year - 1, by omega⟩
  have next := daysThrough_succ before
  simp only [marchDay, Nat.add_one_sub_one, if_pos (by decide : 1 ≤ 2)]
  omega

theorem marchDay_march (positive : 1 ≤ year) : marchDay year 3 1 = marchDay year 2 1 + monthLength year 2 := by
  obtain ⟨before, rfl⟩ : ∃ before, year = before + 1 := ⟨year - 1, by omega⟩
  have next := daysThrough_succ before
  have length : yearLength (before + 1) = 337 + monthLength (before + 1) 2 := by
    rw [yearLength, monthLength, if_pos rfl]
    split <;> rfl
  simp only [marchDay, Nat.add_one_sub_one, if_pos (by decide : 2 ≤ 2), if_neg (by decide : ¬ 3 ≤ 2)]
  omega

theorem marchDay_next_month (positive : 1 ≤ year) (first : 1 ≤ month) (last : month < 12) :
    marchDay year (month + 1) 1 = marchDay year month 1 + monthLength year month := by
  by_cases february : month = 2
  · rw [february]
    exact marchDay_march positive
  · interval_cases month <;> first
      | exact absurd rfl february
      | simp [marchDay, monthLength]

theorem marchDay_day (first : 1 ≤ day) : marchDay year month day = marchDay year month 1 + (day - 1) := by
  unfold marchDay
  omega

theorem marchDay_year_le {later : Nat} (le : year ≤ later) : marchDay year 1 1 ≤ marchDay later 1 1 := by
  have sum := daysThrough_mono (Nat.sub_le_sub_right le 1)
  simp only [marchDay, if_pos (by decide : 1 ≤ 2)]
  omega

theorem marchDay_month_le {later : Nat} (positive : 1 ≤ year) (first : 1 ≤ month) (le : month ≤ later) (last : later ≤ 12) :
    marchDay year month 1 ≤ marchDay year later 1 := by
  induction le with
  | refl => exact Nat.le_refl _
  | step before ih =>
    rw [marchDay_next_month positive (Nat.le_trans first before) last]
    exact Nat.le_trans (ih (Nat.le_of_succ_le last)) (Nat.le_add_right _ _)

theorem marchDay_new_year (positive : 1 ≤ year) : marchDay (year + 1) 1 1 = marchDay year 12 1 + 31 := by
  obtain ⟨before, rfl⟩ : ∃ before, year = before + 1 := ⟨year - 1, by omega⟩
  simp [marchDay]

end Days

/-- A date of the calendar. -/
structure Valid (year month day : Nat) : Prop where
  positive : 1 ≤ year
  first : 1 ≤ month
  last : month ≤ 12
  begins : 1 ≤ day
  ends : day ≤ monthLength year month

section Order

variable {year month day year' month' day' : Nat}

variable (valid : Valid year month day)
include valid

theorem Valid.start_le : marchDay year 1 1 ≤ marchDay year month day := by
  rw [marchDay_day valid.begins]
  exact Nat.le_trans (marchDay_month_le valid.positive (Nat.le_refl 1) valid.first valid.last) (Nat.le_add_right _ _)

theorem Valid.lt_month (before : month < month') (last : month' ≤ 12) :
    marchDay year month day < marchDay year month' 1 := by
  have next := marchDay_next_month valid.positive valid.first (Nat.lt_of_lt_of_le before last)
  have later := marchDay_month_le valid.positive (Nat.le_add_left 1 month) before last
  have begins := valid.begins
  have ends := valid.ends
  rw [marchDay_day begins]
  omega

theorem Valid.lt_year (before : year < year') : marchDay year month day < marchDay year' 1 1 := by
  have later : marchDay (year + 1) 1 1 ≤ marchDay year' 1 1 := marchDay_year_le before
  have turn := marchDay_new_year valid.positive
  by_cases december : month = 12
  · subst december
    have begins := valid.begins
    have ends : day ≤ 31 := valid.ends
    rw [marchDay_day begins]
    omega
  · have last := valid.last
    have less := valid.lt_month (by omega : month < 12) (Nat.le_refl 12)
    omega

theorem Valid.marchDay_lt (valid' : Valid year' month' day')
    (before : year < year' ∨ year = year' ∧ (month < month' ∨ month = month' ∧ day < day')) :
    marchDay year month day < marchDay year' month' day' := by
  rcases before with less | ⟨rfl, less | ⟨rfl, less⟩⟩
  · exact Nat.lt_of_lt_of_le (valid.lt_year less) valid'.start_le
  · rw [marchDay_day valid'.begins]
    exact Nat.lt_of_lt_of_le (valid.lt_month less valid'.last) (Nat.le_add_right _ _)
  · have begins := valid.begins
    rw [marchDay_day begins, marchDay_day valid'.begins]
    omega

theorem Valid.since (since : 1970 ≤ year) : marchDay 1970 1 1 ≤ marchDay year month day :=
  Nat.le_trans (marchDay_year_le since) valid.start_le

end Order

end Library.Gregorian
