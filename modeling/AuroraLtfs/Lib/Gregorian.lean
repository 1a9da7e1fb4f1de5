import Mathlib

/-!
# The proleptic Gregorian calendar

Days are counted from January 1 of the year 0.  A day of the calendar is a year, a
month from 0 on and a day of the month from 1 on; no two of them have the same number.
-/

namespace AuroraLtfs.Gregorian

def IsLeap (year : ℤ) : Prop :=
  year % 400 = 0 ∨ (year % 100 ≠ 0 ∧ year % 4 = 0)

instance (year : ℤ) : Decidable (IsLeap year) :=
  inferInstanceAs (Decidable (_ ∨ _))

def daysOfYear (year : ℤ) : ℤ :=
  if IsLeap year then 366 else 365

def daysOfMonth (year : ℤ) (month : ℕ) : ℤ :=
  match month with
  | 1 => if IsLeap year then 29 else 28
  | 3 | 5 | 8 | 10 => 30
  | _ => 31

/-- The number of the first day of a year. -/
def yearStart (year : ℤ) : ℤ :=
  365 * year + (year + 3) / 4 - (year + 99) / 100 + (year + 399) / 400

/-- The days of a year before a month. -/
def monthStart (year : ℤ) (month : ℕ) : ℤ :=
  ((List.range month).map (daysOfMonth year)).sum

/-- The number of a day. -/
def dayNumber (year : ℤ) (month : ℕ) (day : ℤ) : ℤ :=
  yearStart year + monthStart year month + (day - 1)

structure ValidDate (year : ℤ) (month : ℕ) (day : ℤ) : Prop where
  month_lt : month < 12
  day_pos : 1 ≤ day
  day_le : day ≤ daysOfMonth year month

theorem yearStart_succ (year : ℤ) :
    yearStart (year + 1) = yearStart year + daysOfYear year := by
  unfold yearStart daysOfYear IsLeap
  split_ifs <;> omega

theorem yearStart_mono {y z : ℤ} (h : y ≤ z) : yearStart y ≤ yearStart z := by
  unfold yearStart
  omega

theorem monthStart_succ (year : ℤ) (month : ℕ) :
    monthStart year (month + 1) = monthStart year month + daysOfMonth year month := by
  simp [monthStart, List.range_succ]

theorem daysOfMonth_pos (year : ℤ) (month : ℕ) : 0 < daysOfMonth year month := by
  unfold daysOfMonth
  split <;> try split
  all_goals norm_num

theorem daysOfMonth_le (year : ℤ) (month : ℕ) : daysOfMonth year month ≤ 31 := by
  unfold daysOfMonth
  split <;> try split
  all_goals norm_num

theorem monthStart_twelve (year : ℤ) : monthStart year 12 = daysOfYear year := by
  simp only [monthStart, List.range_succ, List.range_zero, List.nil_append,
    List.cons_append, List.map_cons, List.map_nil, List.sum_cons, List.sum_nil,
    daysOfMonth, daysOfYear]
  split_ifs <;> rfl

theorem monthStart_mono (year : ℤ) {m n : ℕ} (h : m ≤ n) :
    monthStart year m ≤ monthStart year n := by
  induction n, h using Nat.le_induction with
  | base => exact le_rfl
  | succ n _ ih =>
    rw [monthStart_succ]
    have := daysOfMonth_pos year n
    omega

/-- The days of a year lie between its first day and the first day of the next. -/
theorem ValidDate.dayNumber_mem {year : ℤ} {month : ℕ} {day : ℤ}
    (h : ValidDate year month day) :
    yearStart year ≤ dayNumber year month day ∧
      dayNumber year month day < yearStart (year + 1) := by
  have hnext := monthStart_succ year month
  have hlast : monthStart year (month + 1) ≤ monthStart year 12 :=
    monthStart_mono year h.month_lt
  have hfirst := monthStart_mono year (Nat.zero_le month)
  have hzero : monthStart year 0 = 0 := rfl
  have htwelve := monthStart_twelve year
  have hpos := h.day_pos
  have hle := h.day_le
  rw [yearStart_succ, dayNumber]
  omega

/-- No two days have the same number. -/
theorem dayNumber_injective {y z : ℤ} {m n : ℕ} {d e : ℤ} (h : ValidDate y m d)
    (h' : ValidDate z n e) (heq : dayNumber y m d = dayNumber z n e) :
    y = z ∧ m = n ∧ d = e := by
  have hy := h.dayNumber_mem
  have hz := h'.dayNumber_mem
  obtain rfl : y = z := by
    rcases lt_trichotomy y z with hlt | rfl | hgt
    · have := yearStart_mono (Int.add_one_le_of_lt hlt)
      omega
    · rfl
    · have := yearStart_mono (Int.add_one_le_of_lt hgt)
      omega
  have hd := h.day_pos
  have hd' := h.day_le
  have he := h'.day_pos
  have he' := h'.day_le
  simp only [dayNumber] at heq
  obtain rfl : m = n := by
    rcases lt_trichotomy m n with hlt | rfl | hgt
    · have hstart : monthStart y (m + 1) ≤ monthStart y n := monthStart_mono y hlt
      rw [monthStart_succ] at hstart
      omega
    · rfl
    · have hstart : monthStart y (n + 1) ≤ monthStart y m := monthStart_mono y hgt
      rw [monthStart_succ] at hstart
      omega
  exact ⟨rfl, rfl, by omega⟩

end AuroraLtfs.Gregorian
