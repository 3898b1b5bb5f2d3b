import Adwarden.Lib.Gregorian
import Adwarden.Rust.Checked
import Adwarden.Rust.Str

/-! The timestamps of the HAR export. -/
namespace Adwarden.Tls
open Lib.Gregorian

/-- Day of the era to the year of the era, with years that begin in March. -/
def yearOfEra (doe : ℕ) : Option ℕ := do
  let n ← u64Sub doe (doe / 1460)
  let n ← u64Add n (doe / 36524)
  let n ← u64Sub n (doe / 146096)
  some (n / 365)

/-- Day of the era and year of the era to the day of the year. -/
def dayOfYear (doe yoe : ℕ) : Option ℕ := do
  let n ← u64Mul 365 yoe
  let n ← u64Add n (yoe / 4)
  let n ← u64Sub n (yoe / 100)
  u64Sub doe n

/-- Day of the year to the month, counted from March, and the day in it. -/
def monthDay (doy : ℕ) : Option (ℕ × ℕ) := do
  let n ← u64Mul 5 doy
  let n ← u64Add n 2
  let mp := n / 153
  let n ← u64Mul 153 mp
  let n ← u64Add n 2
  let n ← u64Sub doy (n / 5)
  let d ← u64Add n 1
  let m ← if mp < 10 then u64Add mp 3 else u64Sub mp 9
  some (u64AsU32 m, u64AsU32 d)

/-- The era of a day counted from its first of March. -/
def eraOf (z : ℤ) : Option ℤ := do
  let n ← if 0 ≤ z then some z else i64Sub z 146096
  some (n.tdiv 146097)

/-- Days since the unix epoch to year, month and day; `none` where the arithmetic leaves its
types. -/
def civilFromDays (z : ℤ) : Option (ℤ × ℕ × ℕ) := do
  let z ← i64Add z 719468
  let era ← eraOf z
  let start ← i64Mul era 146097
  let rest ← i64Sub z start
  let doe := i64AsU64 rest
  let yoe ← yearOfEra doe
  let years ← i64Mul era 400
  let y ← i64Add (u64AsI64 yoe) years
  let doy ← dayOfYear doe yoe
  let (m, d) ← monthDay doy
  let y ← if m ≤ 2 then i64Add y 1 else some y
  some (y, m, d)

/-- `{n:0w}`. -/
def zeroPadded (w n : ℕ) : Str :=
  List.replicate (w - (Str.ofNat n).length) '0' ++ Str.ofNat n

/-- `{year:04}`. -/
def yearText (year : ℤ) : Str :=
  if 0 ≤ year then zeroPadded 4 year.toNat else '-' :: zeroPadded 3 (-year).toNat

def stampText (year : ℤ) (month day hour min sec millis : ℕ) : Str :=
  yearText year ++ ['-'] ++ zeroPadded 2 month ++ ['-'] ++ zeroPadded 2 day ++ ['T'] ++
    zeroPadded 2 hour ++ [':'] ++ zeroPadded 2 min ++ [':'] ++ zeroPadded 2 sec ++ ['.'] ++
    zeroPadded 3 millis ++ ['Z']

/-- Unix milliseconds as ISO 8601 in UTC. -/
def iso8601 (unixMs : ℕ) : Option Str := do
  let secs := unixMs / 1000
  let millis := unixMs % 1000
  let days := u64AsI64 (secs / 86400)
  let rem := secs % 86400
  let (year, month, day) ← civilFromDays days
  some (stampText year month day (rem / 3600) (rem % 3600 / 60) (rem % 60) millis)

/-- A day of the era in its century, four years, year and day: the leap days come last, so only the
last year of the four has a day 365, and only the last century one in its last four years. -/
structure EraDay where
  century : ℕ
  cycle : ℕ
  year : ℕ
  day : ℕ
  century_le : century ≤ 3
  cycle_le : cycle ≤ 24
  year_le : year ≤ 3
  day_le : day ≤ 365
  leap : day = 365 → year = 3 ∧ (cycle = 24 → century = 3)

namespace EraDay

def doe (e : EraDay) : ℕ := 36524 * e.century + 1461 * e.cycle + 365 * e.year + e.day

def yoe (e : EraDay) : ℕ := 100 * e.century + 4 * e.cycle + e.year

theorem doe_lt (e : EraDay) : e.doe < 146097 := by
  have := e.century_le
  have := e.cycle_le
  have := e.year_le
  have := e.day_le
  have := e.leap
  rw [doe]
  omega

theorem exists_doe {n : ℕ} (h : n < 146097) : ∃ e : EraDay, e.doe = n := by
  by_cases hlast : n = 146096
  · exact ⟨⟨3, 24, 3, 365, by omega, by omega, by omega, by omega, by omega⟩,
      by simp only [doe]; omega⟩
  · have hc : n / 36524 ≤ 3 := by omega
    have hi : n % 36524 / 1461 ≤ 24 := by omega
    by_cases hleap : n % 36524 % 1461 = 1460
    · exact ⟨⟨n / 36524, n % 36524 / 1461, 3, 365, hc, hi, by omega, by omega, by omega⟩,
        by simp only [doe]; omega⟩
    · exact ⟨⟨n / 36524, n % 36524 / 1461, n % 36524 % 1461 / 365, n % 36524 % 1461 % 365, hc, hi,
        by omega, by omega, by omega⟩, by simp only [doe]; omega⟩

end EraDay

theorem yearOfEra_eq (e : EraDay) : yearOfEra e.doe = some e.yoe := by
  obtain ⟨c, i, j, k, hc, hi, hj, hk, hleap⟩ := e
  simp only [EraDay.doe, EraDay.yoe]
  obtain ⟨n, hn⟩ : ∃ n, n = 36524 * c + 1461 * i + 365 * j + k := ⟨_, rfl⟩
  rw [← hn, yearOfEra, u64Sub_of (by omega), Option.bind_eq_bind, Option.bind_some,
    u64Add_of (by omega), Option.bind_some, u64Sub_of (by omega), Option.bind_some]
  congr 1
  by_cases hlast : n = 146096
  · subst hlast
    norm_num
    omega
  · have hcent : n / 36524 = c := by omega
    have hera : n / 146096 = 0 := by omega
    have hfour : n / 1460 = 25 * c + i + (24 * c + i + 365 * j + k) / 1460 := by omega
    rw [hcent, hera, hfour]
    omega

theorem dayOfYear_eq (e : EraDay) : dayOfYear e.doe e.yoe = some e.day := by
  obtain ⟨c, i, j, k, hc, hi, hj, hk, hleap⟩ := e
  simp only [EraDay.doe, EraDay.yoe]
  obtain ⟨y, hy⟩ : ∃ y, y = 100 * c + 4 * i + j := ⟨_, rfl⟩
  have hfour : y / 4 = 25 * c + i := by omega
  have hcent : y / 100 = c := by omega
  rw [← hy, dayOfYear, u64Mul_of (by omega), Option.bind_eq_bind, Option.bind_some,
    u64Add_of (by omega), Option.bind_some, u64Sub_of (by omega), Option.bind_some,
    u64Sub_of (by omega)]
  congr 1
  omega

/-- The month and the day in it, for any year `y` that the day's March is in. -/
theorem monthDay_eq {k : ℕ} (h : k ≤ 365) : ∃ m d, monthDay k = some (m, d) ∧ 1 ≤ d ∧
    ((3 ≤ m ∧ m ≤ 12 ∧ ∀ y, d ≤ daysInMonth y m ∧
      daysThrough y (m - 1) + (d - 1) = daysThrough y 2 + k) ∨
    (1 ≤ m ∧ m ≤ 2 ∧ ∀ y, (k = 365 → IsLeap y) → d ≤ daysInMonth y m ∧
      daysThrough y (m - 1) + (d - 1) + 306 = k)) := by
  obtain ⟨mp, hmp⟩ : ∃ mp, mp = (5 * k + 2) / 153 := ⟨_, rfl⟩
  have hle : mp ≤ 11 := by omega
  have hval : monthDay k =
      some (if mp < 10 then mp + 3 else mp - 9, k - (153 * mp + 2) / 5 + 1) := by
    rw [monthDay, u64Mul_of (by omega), Option.bind_eq_bind, Option.bind_some,
      u64Add_of (by omega), Option.bind_some, ← hmp]
    simp only [u64Mul_of (show 153 * mp < 2 ^ 64 by omega), Option.bind_some,
      u64Add_of (show 153 * mp + 2 < 2 ^ 64 by omega),
      u64Sub_of (show (153 * mp + 2) / 5 ≤ k by omega),
      u64Add_of (show k - (153 * mp + 2) / 5 + 1 < 2 ^ 64 by omega)]
    split_ifs with hlt
    · rw [u64Add_of (by omega), Option.bind_some, u64AsU32_of (by omega), u64AsU32_of (by omega)]
    · rw [u64Sub_of (by omega), Option.bind_some, u64AsU32_of (by omega), u64AsU32_of (by omega)]
  refine ⟨_, _, hval, by omega, ?_⟩
  rcases Nat.lt_or_ge mp 10 with hlt | hge
  · rw [if_pos hlt]
    refine .inl ⟨by omega, by omega, fun y => ?_⟩
    interval_cases mp <;> simp only [daysThrough, daysInMonth, Nat.reduceAdd, Nat.reduceSub] <;>
      omega
  · rw [if_neg (by omega)]
    refine .inr ⟨by omega, by omega, fun y hleap => ?_⟩
    interval_cases mp
    · simp only [daysThrough, daysInMonth, Nat.reduceSub]
      omega
    · simp only [daysThrough, daysInMonth, Nat.reduceAdd, Nat.reduceSub]
      split_ifs with hy
      · omega
      · have hk : k ≠ 365 := fun hk => hy (hleap hk)
        omega

/-- Eras before the first are counted downwards. -/
theorem eraOf_eq {z : ℤ} (h : -2 ^ 63 + 146096 ≤ z) : eraOf z = some (z / 146097) := by
  unfold eraOf
  split_ifs with hpos
  · simp only [Option.bind_eq_bind, Option.bind_some]
    rw [Int.tdiv_eq_ediv_of_nonneg hpos]
  · have hneg : z - 146096 = -(146096 - z) := by omega
    simp only [i64Sub, i64Fits_of (show -2 ^ 63 ≤ z - 146096 ∧ z - 146096 < 2 ^ 63 by omega),
      Option.bind_eq_bind, Option.bind_some]
    rw [hneg, Int.neg_tdiv, Int.tdiv_eq_ediv_of_nonneg (by omega)]
    congr 1
    omega

/-- The day of the era, and the year that its March is in. -/
private theorem era_spec (z : ℤ) : ∃ (era : ℤ) (e : EraDay),
    z + 719468 = era * 146097 + e.doe ∧
    (z + 719468) / 146097 = era ∧
    yearStart (era * 400 + e.yoe) + daysThrough (era * 400 + e.yoe) 2 + e.day = z ∧
    (e.day = 365 → IsLeap (era * 400 + e.yoe + 1)) := by
  obtain ⟨e, he⟩ := @EraDay.exists_doe ((z + 719468) % 146097).toNat (by omega)
  have hdoe : (e.doe : ℤ) = (z + 719468) % 146097 := by omega
  have hsum : z + 719468 = (z + 719468) / 146097 * 146097 + e.doe := by omega
  refine ⟨(z + 719468) / 146097, e, hsum, rfl, ?_, ?_⟩
  · rw [yearStart_march]
    obtain ⟨c, i, j, k, hc, hi, hj, hk, hleap⟩ := e
    simp only [EraDay.doe, EraDay.yoe] at hsum ⊢
    generalize (z + 719468) / 146097 = era at hsum ⊢
    obtain ⟨y, hy⟩ : ∃ y : ℤ, y = era * 400 + (100 * c + 4 * i + j : ℕ) := ⟨_, rfl⟩
    have hfour : y / 4 = era * 100 + 25 * c + i := by omega
    have hcent : y / 100 = era * 4 + c := by omega
    have hera : y / 400 = era := by omega
    rw [← hy, hfour, hcent, hera]
    omega
  · intro hk
    have h := e.leap hk
    obtain ⟨c, i, j, k, hc, hi, hj, hk', hleap⟩ := e
    simp only [EraDay.yoe, IsLeap] at h ⊢
    omega

/-- The date of a day, for every day that the shifted count can be formed of. -/
theorem civilFromDays_eq {z : ℤ} (h : -2 ^ 63 ≤ z ∧ z < 2 ^ 63 - 719468) :
    ∃ date : Date, civilFromDays z = some (date.year, date.month, date.day) ∧
      date.dayNumber = z := by
  obtain ⟨era, e, hsum, hera, hmarch, hleap⟩ := era_spec z
  have hdoe := e.doe_lt
  have hyoe : e.yoe < 400 := by
    have := e.century_le
    have := e.cycle_le
    have := e.year_le
    rw [EraDay.yoe]
    omega
  obtain ⟨m, d, hmd, hd, hmonth⟩ := monthDay_eq e.day_le
  have hshift : i64Add z 719468 = some (z + 719468) := i64Fits_of (by omega)
  have heraOf : eraOf (z + 719468) = some era := by rw [eraOf_eq (by omega), hera]
  have hstart : i64Mul era 146097 = some (era * 146097) := i64Fits_of (by omega)
  have hrest : i64Sub (z + 719468) (era * 146097) = some (e.doe : ℤ) := by
    rw [i64Sub, i64Fits_of (by omega)]
    congr 1
    omega
  have hcast : i64AsU64 (e.doe : ℤ) = e.doe := by
    rw [i64AsU64_of (by omega), Int.toNat_natCast]
  have hyears : i64Mul era 400 = some (era * 400) := i64Fits_of (by omega)
  have hyear : i64Add (u64AsI64 e.yoe) (era * 400) = some (era * 400 + e.yoe) := by
    rw [u64AsI64_of (by omega), i64Add, i64Fits_of (by omega), Int.add_comm]
  have hnext : i64Add (era * 400 + e.yoe) 1 = some (era * 400 + e.yoe + 1) := i64Fits_of (by omega)
  have hval : civilFromDays z =
      some (if m ≤ 2 then era * 400 + e.yoe + 1 else era * 400 + e.yoe, m, d) := by
    simp only [civilFromDays, hshift, heraOf, hstart, hrest, hcast, hyears, hyear, yearOfEra_eq,
      dayOfYear_eq, hmd, hnext, Option.bind_eq_bind, Option.bind_some]
    split_ifs <;> rfl
  rcases hmonth with ⟨hlo, hhi, hm⟩ | ⟨hlo, hhi, hm⟩
  · obtain ⟨hday, hnum⟩ := hm (era * 400 + e.yoe)
    refine ⟨⟨era * 400 + e.yoe, m, d, by omega, hhi, hd, hday⟩, ?_, ?_⟩
    · rw [hval, if_neg (by omega)]
    · simp only [Date.dayNumber]
      omega
  · obtain ⟨hday, hnum⟩ := hm (era * 400 + e.yoe + 1) hleap
    refine ⟨⟨era * 400 + e.yoe + 1, m, d, hlo, by omega, hd, hday⟩, ?_, ?_⟩
    · rw [hval, if_pos hhi]
    · have hsucc := yearStart_succ_march (era * 400 + e.yoe)
      simp only [Date.dayNumber]
      omega

/-- The date of any day number is found from it. -/
theorem civilFromDays_dayNumber (date : Date)
    (h : -2 ^ 63 ≤ date.dayNumber ∧ date.dayNumber < 2 ^ 63 - 719468) :
    civilFromDays date.dayNumber = some (date.year, date.month, date.day) := by
  obtain ⟨found, hval, hnum⟩ := civilFromDays_eq h
  rw [hval, Date.dayNumber_injective hnum]

/-- Day numbers count the days of the calendar from the epoch on. -/
theorem civilFromDays_tomorrow (date : Date)
    (h : -2 ^ 63 ≤ date.dayNumber ∧ date.dayNumber + 1 < 2 ^ 63 - 719468) :
    civilFromDays (date.dayNumber + 1) =
      some (date.tomorrow.year, date.tomorrow.month, date.tomorrow.day) := by
  rw [← date.dayNumber_tomorrow]
  refine civilFromDays_dayNumber _ ?_
  rw [date.dayNumber_tomorrow]
  omega

example : civilFromDays epoch.dayNumber = some (1970, 1, 1) := by decide

/-- The text of a date and time. -/
def stamp (t : DateTime) : Str :=
  stampText t.date.year t.date.month t.date.day t.hour t.minute t.second t.millis

/-- The one date and time of a count of milliseconds is printed, and every day that such a count
falls on gives back its date, and the day after it the date that follows. -/
theorem iso8601_exact {unixMs : ℕ} (h : unixMs < 2 ^ 64) :
    (∃ t : DateTime, iso8601 unixMs = some (stamp t) ∧ t.unixMillis = unixMs ∧
      ∀ u : DateTime, u.unixMillis = unixMs → u = t) ∧
    ∀ date : Date, date.dayNumber = unixMs / 86400000 →
      civilFromDays date.dayNumber = some (date.year, date.month, date.day) ∧
      civilFromDays (date.dayNumber + 1) =
        some (date.tomorrow.year, date.tomorrow.month, date.tomorrow.day) := by
  have hdays : unixMs / 1000 / 86400 < 2 ^ 63 := by omega
  constructor
  · obtain ⟨date, hval, hnum⟩ := @civilFromDays_eq (unixMs / 1000 / 86400 : ℕ) (by omega)
    refine ⟨⟨date, unixMs / 1000 % 86400 / 3600, unixMs / 1000 % 86400 % 3600 / 60,
      unixMs / 1000 % 86400 % 60, unixMs % 1000, by omega, by omega, by omega, by omega⟩,
      ?_, ?_, ?_⟩
    · simp only [iso8601, u64AsI64_of hdays, hval]
      rfl
    · simp only [DateTime.unixMillis, hnum]
      omega
    · intro u hu
      apply DateTime.unixMillis_injective
      rw [hu]
      simp only [DateTime.unixMillis, hnum]
      omega
  · intro date hdate
    exact ⟨civilFromDays_dayNumber date (by omega), civilFromDays_tomorrow date (by omega)⟩

theorem iso8601_exact_leap_day :
    ∃ t : DateTime, iso8601 951868799999 = some (stamp t) ∧ t.unixMillis = 951868799999 ∧
      stamp t = Str.lit "2000-02-29T23:59:59.999Z" ∧ civilFromDays 11017 = some (2000, 3, 1) := by
  obtain ⟨⟨t, htext, hmillis, -⟩, hdays⟩ := @iso8601_exact 951868799999 (by decide)
  have hnext := (hdays ⟨2000, 2, 29, by decide, by decide, by decide, by decide⟩ (by decide)).2
  refine ⟨t, htext, hmillis, ?_, hnext⟩
  have hrun : iso8601 951868799999 = some (Str.lit "2000-02-29T23:59:59.999Z") := by
    decide +kernel
  exact Option.some.inj (htext.symm.trans hrun)

end Adwarden.Tls
