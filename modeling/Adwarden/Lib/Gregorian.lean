import Mathlib.Algebra.Order.Group.Int
import Mathlib.Data.Nat.Notation
import Mathlib.Tactic.Common
import Mathlib.Tactic.IntervalCases

/-! The proleptic Gregorian calendar: dates, the number of days from the first of January 1970, and
times of day. -/
namespace Adwarden.Lib.Gregorian

def IsLeap (y : ℤ) : Prop := y % 4 = 0 ∧ (y % 100 ≠ 0 ∨ y % 400 = 0)

instance (y : ℤ) : Decidable (IsLeap y) := inferInstanceAs (Decidable (_ ∧ _))

def daysInMonth (y : ℤ) : ℕ → ℕ
  | 2 => if IsLeap y then 29 else 28
  | 4 | 6 | 9 | 11 => 30
  | _ => 31

/-- The days of the first `m` months. -/
def daysThrough (y : ℤ) : ℕ → ℕ
  | 0 => 0
  | m + 1 => daysThrough y m + daysInMonth y (m + 1)

def yearLength (y : ℤ) : ℕ := daysThrough y 12

/-- The day number of the first of January. -/
def yearStart (y : ℤ) : ℤ :=
  365 * (y - 1970) + ((y - 1) / 4 - (y - 1) / 100 + (y - 1) / 400) - 477

@[ext] structure Date where
  year : ℤ
  month : ℕ
  day : ℕ
  month_pos : 1 ≤ month
  month_le : month ≤ 12
  day_pos : 1 ≤ day
  day_le : day ≤ daysInMonth year month
deriving DecidableEq

/-- Days from the first of January 1970. -/
def Date.dayNumber (d : Date) : ℤ :=
  yearStart d.year + daysThrough d.year (d.month - 1) + (d.day - 1)

theorem daysInMonth_pos (y : ℤ) (m : ℕ) : 0 < daysInMonth y m := by
  unfold daysInMonth
  split <;> try split_ifs
  all_goals omega

theorem yearLength_eq (y : ℤ) : yearLength y = if IsLeap y then 366 else 365 := by
  simp only [yearLength, daysThrough, daysInMonth]
  split_ifs <;> rfl

theorem yearStart_succ (y : ℤ) : yearStart (y + 1) = yearStart y + yearLength y := by
  rw [yearLength_eq]
  unfold yearStart
  split_ifs with h
  · unfold IsLeap at h
    omega
  · unfold IsLeap at h
    omega

/-- The day number of the first of March. -/
theorem yearStart_march (y : ℤ) :
    yearStart y + daysThrough y 2 = 365 * y + y / 4 - y / 100 + y / 400 - 719468 := by
  simp only [daysThrough, daysInMonth]
  unfold yearStart
  split_ifs with h
  · unfold IsLeap at h
    omega
  · unfold IsLeap at h
    omega

/-- From March on, years are alike. -/
theorem yearStart_succ_march (y : ℤ) :
    yearStart (y + 1) = yearStart y + daysThrough y 2 + 306 := by
  rw [yearStart_succ, yearLength]
  simp only [daysThrough, daysInMonth, Nat.reduceAdd]
  omega

theorem yearStart_mono {a b : ℤ} (h : a ≤ b) : yearStart a ≤ yearStart b := by
  unfold yearStart
  omega

theorem daysThrough_mono (y : ℤ) {a b : ℕ} (h : a ≤ b) : daysThrough y a ≤ daysThrough y b := by
  induction h with
  | refl => exact Nat.le_refl _
  | step _ ih => exact Nat.le_trans ih (Nat.le_add_right _ _)

namespace Date

/-- A date lies in its month. -/
theorem day_lt (d : Date) :
    daysThrough d.year (d.month - 1) + (d.day - 1) < daysThrough d.year d.month := by
  have hday := d.day_pos
  have hle := d.day_le
  obtain ⟨m, hm⟩ : ∃ m, d.month = m + 1 := ⟨d.month - 1, by have := d.month_pos; omega⟩
  rw [hm] at hle
  rw [hm, Nat.add_sub_cancel, daysThrough]
  omega

theorem dayNumber_lt (d : Date) : d.dayNumber < yearStart (d.year + 1) := by
  have hday := d.day_lt
  have hpos := d.day_pos
  have hyear := daysThrough_mono d.year d.month_le
  rw [yearStart_succ, yearLength, dayNumber]
  omega

theorem yearStart_le_dayNumber (d : Date) : yearStart d.year ≤ d.dayNumber := by
  have hpos := d.day_pos
  rw [dayNumber]
  omega

/-- Different dates have different numbers. -/
theorem dayNumber_injective : Function.Injective dayNumber := by
  intro a b h
  have hyear : a.year = b.year := by
    by_contra hne
    rcases Int.lt_or_gt_of_ne hne with hlt | hlt
    · have := yearStart_mono (show a.year + 1 ≤ b.year by omega)
      have := a.dayNumber_lt
      have := b.yearStart_le_dayNumber
      omega
    · have := yearStart_mono (show b.year + 1 ≤ a.year by omega)
      have := b.dayNumber_lt
      have := a.yearStart_le_dayNumber
      omega
  have ha := a.day_lt
  have hb := b.day_lt
  have hapos := a.day_pos
  have hbpos := b.day_pos
  have hin : daysThrough a.year (a.month - 1) + (a.day - 1) =
      daysThrough a.year (b.month - 1) + (b.day - 1) := by
    rw [dayNumber, dayNumber, ← hyear] at h
    omega
  rw [← hyear] at hb
  have hmonth : a.month = b.month := by
    by_contra hne
    rcases Nat.lt_or_gt_of_ne hne with hlt | hlt
    · have := daysThrough_mono a.year (show a.month ≤ b.month - 1 by omega)
      omega
    · have := daysThrough_mono a.year (show b.month ≤ a.month - 1 by omega)
      omega
  rw [hmonth] at hin
  exact Date.ext hyear hmonth (by omega)

/-- The date after. -/
def tomorrow (d : Date) : Date :=
  if hday : d.day < daysInMonth d.year d.month then
    { d with day := d.day + 1, day_pos := by omega, day_le := hday }
  else if hmonth : d.month < 12 then
    { year := d.year, month := d.month + 1, day := 1, month_pos := by omega, month_le := hmonth,
      day_pos := by omega, day_le := daysInMonth_pos _ _ }
  else
    { year := d.year + 1, month := 1, day := 1, month_pos := by omega, month_le := by omega,
      day_pos := by omega, day_le := daysInMonth_pos _ _ }

theorem dayNumber_tomorrow (d : Date) : d.tomorrow.dayNumber = d.dayNumber + 1 := by
  have hpos := d.day_pos
  have hle := d.day_le
  have hmpos := d.month_pos
  have hmle := d.month_le
  have hend : daysThrough d.year d.month =
      daysThrough d.year (d.month - 1) + daysInMonth d.year d.month := by
    obtain ⟨m, hm⟩ : ∃ m, d.month = m + 1 := ⟨d.month - 1, by omega⟩
    rw [hm, Nat.add_sub_cancel, daysThrough]
  unfold tomorrow
  split_ifs with hday hmonth
  · simp only [dayNumber]
    omega
  · simp only [dayNumber, Nat.add_sub_cancel]
    omega
  · have hdec : d.month = 12 := by omega
    have hyear := yearStart_succ d.year
    rw [yearLength, ← hdec] at hyear
    have hzero : daysThrough (d.year + 1) (1 - 1) = 0 := rfl
    simp only [dayNumber, hyear, hzero]
    omega

end Date

/-- The first of January 1970. -/
def epoch : Date := ⟨1970, 1, 1, by decide, by decide, by decide, by decide⟩

example : epoch.dayNumber = 0 := by decide

/-- A date and a time of day in UTC, to the millisecond. -/
@[ext] structure DateTime where
  date : Date
  hour : ℕ
  minute : ℕ
  second : ℕ
  millis : ℕ
  hour_lt : hour < 24
  minute_lt : minute < 60
  second_lt : second < 60
  millis_lt : millis < 1000
deriving DecidableEq

/-- Milliseconds from the start of 1970. -/
def DateTime.unixMillis (t : DateTime) : ℤ :=
  t.date.dayNumber * 86400000 + t.hour * 3600000 + t.minute * 60000 + t.second * 1000 + t.millis

theorem DateTime.unixMillis_injective : Function.Injective unixMillis := by
  intro a b h
  have := a.hour_lt
  have := a.minute_lt
  have := a.second_lt
  have := a.millis_lt
  have := b.hour_lt
  have := b.minute_lt
  have := b.second_lt
  have := b.millis_lt
  simp only [unixMillis] at h
  have hday : a.date.dayNumber = b.date.dayNumber := by omega
  have hdate := Date.dayNumber_injective hday
  ext : 1
  · exact hdate
  · omega
  · omega
  · omega
  · omega

end Adwarden.Lib.Gregorian
