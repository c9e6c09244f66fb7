import Mathlib.Order.Basic
import Mathlib.Tactic.IntervalCases
import Mathlib.Tactic.Ring

/-!
# The proleptic Gregorian calendar

Dates of any year, year zero and before included, and the number of days from the first of
January 1970 to a date. A day later is a day more, so the numbering is the calendar's, and
every day is the number of exactly one date: the one that cycles of 400 years, counted from
a first of March, lead to.
-/

namespace Apitap.Foundation

namespace Calendar

structure Date where
  year : Int
  month : Nat
  day : Nat
deriving DecidableEq, Repr

def Leap (y : Int) : Prop := y % 4 = 0 ∧ (y % 100 ≠ 0 ∨ y % 400 = 0)

instance (y : Int) : Decidable (Leap y) := inferInstanceAs (Decidable (_ ∧ _))

def daysIn (y : Int) (m : Nat) : Nat :=
  if m = 2 then (if Leap y then 29 else 28)
  else if m = 4 ∨ m = 6 ∨ m = 9 ∨ m = 11 then 30
  else 31

/-- The month and the day exist in the year. -/
def Date.Valid (d : Date) : Prop :=
  (1 ≤ d.month ∧ d.month ≤ 12) ∧ 1 ≤ d.day ∧ d.day ≤ daysIn d.year d.month

instance (d : Date) : Decidable d.Valid := inferInstanceAs (Decidable (_ ∧ _))

def Date.next (d : Date) : Date :=
  if d.day < daysIn d.year d.month then { d with day := d.day + 1 }
  else if d.month < 12 then ⟨d.year, d.month + 1, 1⟩
  else ⟨d.year + 1, 1, 1⟩

/-- Days before a month in a year that is not a leap year. -/
def daysBefore (m : Nat) : Nat :=
  [0, 31, 59, 90, 120, 151, 181, 212, 243, 273, 304, 334].getD (m - 1) 0

/-- Days from the first of January 1970. -/
def Date.number (d : Date) : Int :=
  365 * (d.year - 1) + (d.year - 1) / 4 - (d.year - 1) / 100 + (d.year - 1) / 400 +
    daysBefore d.month + (if 2 < d.month ∧ Leap d.year then 1 else 0) + d.day - 719163

variable {d e : Date}

theorem number_epoch : (⟨1970, 1, 1⟩ : Date).number = 0 := by decide

theorem Date.Valid.next (valid : d.Valid) : d.next.Valid := by
  obtain ⟨y, m, d⟩ := d
  obtain ⟨⟨m_pos, m_le⟩, d_pos, d_le⟩ := valid
  simp only at m_pos m_le d_pos d_le
  have long : 1 ≤ daysIn y (m + 1) := by
    rw [daysIn]
    split
    · split
      · decide
      · decide
    · split
      · decide
      · decide
  rw [Date.next]
  split
  case isTrue more => exact ⟨⟨m_pos, m_le⟩, Nat.succ_pos d, more⟩
  case isFalse =>
      split
      case isTrue more => exact ⟨⟨Nat.succ_pos m, more⟩, Nat.le_refl 1, long⟩
      case isFalse => exact ⟨⟨Nat.le_refl 1, by simp⟩, Nat.le_refl 1, by simp [daysIn]⟩

/-- A day later is a day more. -/
theorem Date.Valid.number_next (valid : d.Valid) : d.next.number = d.number + 1 := by
  obtain ⟨y, m, d⟩ := d
  obtain ⟨⟨m_pos, m_le⟩, d_pos, d_le⟩ := valid
  simp only at m_pos m_le d_pos d_le
  rw [Date.next]
  simp only
  split
  case isTrue =>
      simp only [Date.number]
      push_cast
      omega
  case isFalse last =>
      obtain rfl : d = daysIn y m := by omega
      split
      case isTrue =>
          interval_cases m <;> simp only [Date.number, daysBefore, daysIn] <;> norm_num <;>
            (try split) <;> omega
      case isFalse =>
          obtain rfl : m = 12 := by omega
          simp [Date.number, daysBefore, daysIn, Leap]
          split <;> omega

/-- Where the days of a year are. -/
theorem Date.Valid.number_bounds (valid : d.Valid) :
    365 * (d.year - 1) + (d.year - 1) / 4 - (d.year - 1) / 100 + (d.year - 1) / 400 - 719162 ≤
        d.number ∧
      d.number ≤ 365 * (d.year - 1) + (d.year - 1) / 4 - (d.year - 1) / 100 +
        (d.year - 1) / 400 - 719162 + 365 := by
  obtain ⟨y, m, d⟩ := d
  obtain ⟨⟨m_pos, m_le⟩, d_pos, d_le⟩ := valid
  simp only at m_pos m_le d_pos d_le
  have leap : (if 2 < m ∧ Leap y then 1 else 0 : Int) ≤ 1 ∧
      0 ≤ (if 2 < m ∧ Leap y then 1 else 0 : Int) := by
    split
    · decide
    · decide
  have short : m ≠ 2 → daysIn y m ≤ 31 := by
    intro other
    rw [daysIn, if_neg other]
    split
    · decide
    · decide
  have february : daysIn y 2 ≤ 29 := by
    rw [daysIn, if_pos rfl]
    split
    · decide
    · decide
  simp only [Date.number]
  interval_cases m <;> simp [daysBefore] at * <;> omega

/-! ## From a number to its date -/

/-- The year of a 400-year cycle of 146097 days, counted from a first of March. -/
def yearOfCycle (n : Int) : Int := (n - n / 1460 + n / 36524 - n / 146096) / 365

/-- Days before a year of the cycle. -/
def daysBeforeYear (y : Int) : Int := 365 * y + y / 4 - y / 100

/-- A day of the cycle by its century, its four years and its year: in each the last one may
be a day longer. -/
theorem exists_parts {n : Int} (nonneg : 0 ≤ n) (small : n ≤ 146096) :
    ∃ c q a r : Int, (0 ≤ c ∧ c ≤ 3) ∧ (0 ≤ q ∧ q ≤ 24) ∧ (0 ≤ a ∧ a ≤ 3) ∧
      (0 ≤ r ∧ (r ≤ 364 ∨ (r = 365 ∧ a = 3 ∧ (q < 24 ∨ c = 3)))) ∧
      n = 36524 * c + 1461 * q + 365 * a + r := by
  refine ⟨min (n / 36524) 3, (n - 36524 * min (n / 36524) 3) / 1461,
    min ((n - 36524 * min (n / 36524) 3) % 1461 / 365) 3,
    (n - 36524 * min (n / 36524) 3) % 1461 -
      365 * min ((n - 36524 * min (n / 36524) 3) % 1461 / 365) 3, ?_⟩
  omega

theorem yearOfCycle_parts {c q a r : Int} (c_le : 0 ≤ c ∧ c ≤ 3) (q_le : 0 ≤ q ∧ q ≤ 24)
    (a_le : 0 ≤ a ∧ a ≤ 3)
    (r_le : 0 ≤ r ∧ (r ≤ 364 ∨ (r = 365 ∧ a = 3 ∧ (q < 24 ∨ c = 3)))) :
    yearOfCycle (36524 * c + 1461 * q + 365 * a + r) = 100 * c + 4 * q + a := by
  generalize whole : 36524 * c + 1461 * q + 365 * a + r = n
  have fours : n / 1460 = 25 * c + q ∨ (n / 1460 = 25 * c + q + 1 ∧ a = 3 ∧ 1 ≤ r) := by omega
  have centuries : n / 36524 - n / 146096 = c := by
    obtain last | before : n = 146096 ∨ n < 146096 := by omega
    · omega
    · have within : 36524 * c ≤ n ∧ n < 36524 * (c + 1) := by omega
      omega
  have years : n - n / 1460 + n / 36524 - n / 146096 =
      365 * (100 * c + 4 * q + a) + (r - (n / 1460 - (25 * c + q))) := by omega
  rw [yearOfCycle, years, Int.mul_add_ediv_left _ _ (by decide), Int.ediv_eq_zero_of_lt,
    Int.add_zero]
  · omega
  · omega

theorem daysBeforeYear_parts {c q a : Int} (q_le : 0 ≤ q ∧ q ≤ 24)
    (a_le : 0 ≤ a ∧ a ≤ 3) :
    daysBeforeYear (100 * c + 4 * q + a) = 36524 * c + 1461 * q + 365 * a := by
  have fours : (100 * c + 4 * q + a) / 4 = 25 * c + q := by omega
  have centuries : (100 * c + 4 * q + a) / 100 = c := by omega
  rw [daysBeforeYear, fours, centuries]
  ring

/-- The month of a day of a year from the first of March on, March being 0. -/
def monthOfDay (r : Int) : Int := (5 * r + 2) / 153

/-- A date of a year from March on: January and February are of the next. -/
def ofMarch (y r : Int) : Date :=
  let m := if monthOfDay r < 10 then monthOfDay r + 3 else monthOfDay r - 9
  ⟨if m ≤ 2 then y + 1 else y, m.toNat, (r - (153 * monthOfDay r + 2) / 5 + 1).toNat⟩

theorem monthOfDay_le {r : Int} (nonneg : 0 ≤ r) (small : r ≤ 365) :
    0 ≤ monthOfDay r ∧ monthOfDay r ≤ 11 := by
  rw [monthOfDay]
  omega

theorem ofMarch_spec {y r : Int} (nonneg : 0 ≤ r) (small : r ≤ 364 ∨ (r = 365 ∧ Leap (y + 1))) :
    (ofMarch y r).Valid ∧
      (ofMarch y r).number = 365 * y + y / 4 - y / 100 + y / 400 + r - 719468 := by
  have months := monthOfDay_le nonneg (by omega)
  obtain ⟨m, is⟩ : ∃ m, monthOfDay r = m := ⟨_, rfl⟩
  have days : (5 * r + 2) / 153 = m := is
  rw [is] at months
  obtain ⟨low, high⟩ := months
  simp only [ofMarch, is, Date.Valid, Date.number, Leap, daysIn, daysBefore] at small ⊢
  interval_cases m <;> simp <;> omega

/-- The date of a day. -/
def civil (z : Int) : Date :=
  let cycle := (z + 719468) / 146097
  let n := (z + 719468) % 146097
  ofMarch (yearOfCycle n + cycle * 400) (n - daysBeforeYear (yearOfCycle n))

theorem civil_parts {k c q a r : Int} (c_le : 0 ≤ c ∧ c ≤ 3) (q_le : 0 ≤ q ∧ q ≤ 24)
    (a_le : 0 ≤ a ∧ a ≤ 3)
    (r_le : 0 ≤ r ∧ (r ≤ 364 ∨ (r = 365 ∧ a = 3 ∧ (q < 24 ∨ c = 3)))) :
    civil (146097 * k + (36524 * c + 1461 * q + 365 * a + r) - 719468) =
      ofMarch (400 * k + (100 * c + 4 * q + a)) r := by
  have cycle : (146097 * k + (36524 * c + 1461 * q + 365 * a + r) - 719468 + 719468) / 146097 =
      k := by omega
  have day : (146097 * k + (36524 * c + 1461 * q + 365 * a + r) - 719468 + 719468) % 146097 =
      36524 * c + 1461 * q + 365 * a + r := by omega
  rw [civil, cycle, day, yearOfCycle_parts c_le q_le a_le r_le, daysBeforeYear_parts q_le a_le]
  congr 1
  · omega
  · omega

/-- Every day has a date of its number. -/
theorem civil_spec (z : Int) : (civil z).Valid ∧ (civil z).number = z := by
  obtain ⟨c, q, a, r, c_le, q_le, a_le, r_le, n⟩ :=
    exists_parts (n := (z + 719468) % 146097) (by omega) (by omega)
  have whole : z = 146097 * ((z + 719468) / 146097) + (36524 * c + 1461 * q + 365 * a + r) -
      719468 := by omega
  rw [whole, civil_parts c_le q_le a_le r_le]
  generalize (z + 719468) / 146097 = k
  have year : r = 365 → Leap (400 * k + (100 * c + 4 * q + a) + 1) := by
    intro long
    rw [Leap]
    omega
  obtain ⟨valid, number⟩ := ofMarch_spec (y := 400 * k + (100 * c + 4 * q + a)) r_le.1
    (r_le.2.imp_right fun ⟨long, _⟩ => ⟨long, year long⟩)
  refine ⟨valid, ?_⟩
  rw [number]
  omega

theorem monthOfDay_start {p d : Int} (p_le : 0 ≤ p ∧ p ≤ 11) (d_pos : 1 ≤ d)
    (d_le : d ≤ (153 * (p + 1) + 2) / 5 - (153 * p + 2) / 5) :
    monthOfDay ((153 * p + 2) / 5 + d - 1) = p := by
  obtain ⟨low, high⟩ := p_le
  rw [monthOfDay]
  interval_cases p <;> omega

/-- A date as a day of a year from March on. -/
theorem Date.Valid.exists_march (valid : d.Valid) :
    ∃ y r : Int, 0 ≤ r ∧ (r ≤ 364 ∨ (r = 365 ∧ Leap (y + 1))) ∧ ofMarch y r = d := by
  obtain ⟨y, m, d⟩ := d
  obtain ⟨⟨m_pos, m_le⟩, d_pos, d_le⟩ := valid
  simp only at m_pos m_le d_pos d_le
  obtain ⟨p, month⟩ : ∃ p : Int, p = if m ≤ 2 then (m : Int) + 9 else m - 3 := ⟨_, rfl⟩
  have short : daysIn y 2 = 28 ∨ (daysIn y 2 = 29 ∧ Leap y) := by
    by_cases leap : Leap y
    · exact .inr ⟨by simp [daysIn, leap], leap⟩
    · exact .inl (by simp [daysIn, leap])
  have start : monthOfDay ((153 * p + 2) / 5 + d - 1) = p := by
    refine monthOfDay_start (by omega) (by omega) ?_
    by_cases february : m = 2
    · subst february
      rw [if_pos (Nat.le_refl 2)] at month
      omega
    · rw [daysIn, if_neg february] at d_le
      interval_cases m <;> simp at d_le month <;> omega
  refine ⟨if m ≤ 2 then y - 1 else y, (153 * p + 2) / 5 + d - 1, by omega, ?_, ?_⟩
  · by_cases february : m = 2
    · subst february
      rw [if_pos (Nat.le_refl 2)] at month ⊢
      rw [Int.sub_add_cancel]
      rcases short with short | ⟨long, leap⟩
      · omega
      · by_cases last : (153 * p + 2) / 5 + d - 1 = 365
        · exact .inr ⟨last, leap⟩
        · omega
    · rw [daysIn, if_neg february] at d_le
      interval_cases m <;> simp at d_le month ⊢ <;> omega
  · simp only [ofMarch, start, Date.mk.injEq]
    omega

/-- A date is the date of its number. -/
theorem Date.Valid.civil_number (valid : d.Valid) : civil d.number = d := by
  obtain ⟨y, r, nonneg, within, rfl⟩ := valid.exists_march
  have parts := civil_parts (k := y / 400) (c := y % 400 / 100) (q := y % 100 / 4) (a := y % 4)
    (r := r) (by omega) (by omega) (by omega) (by rw [Leap] at within; omega)
  have year : 400 * (y / 400) + (100 * (y % 400 / 100) + 4 * (y % 100 / 4) + y % 4) = y := by omega
  rw [year] at parts
  rw [(ofMarch_spec nonneg within).2, ← parts]
  congr 1
  omega

end Calendar

end Apitap.Foundation
