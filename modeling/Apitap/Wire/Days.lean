import Apitap.Foundation.Calendar
import Apitap.Foundation.Checked

/-!
# Three copies of one conversion

Days since 1970 to a civil date: the copies of the two Postgres readers divide by Euclid and
cast month and day to 32 and to 8 bits, the copy of the binlog reader shifts negative days
before it divides and goes on in unsigned arithmetic. Every step is in 64 bits, and a step
that leaves them is a panic.
-/

namespace Apitap.Days

open Foundation Calendar

/-! ## The Postgres copies -/

def yearOfEra (doe : Int) : Option Int :=
  (checked 64 (doe - doe.tdiv 1460)).bind fun a =>
    (checked 64 (a + doe.tdiv 36524)).bind fun a =>
      (checked 64 (a - doe.tdiv 146096)).map (Int.tdiv · 365)

def dayOfYear (doe yoe : Int) : Option Int :=
  (checked 64 (365 * yoe)).bind fun a =>
    (checked 64 (a + yoe.tdiv 4)).bind fun a =>
      (checked 64 (a - yoe.tdiv 100)).bind fun a => checked 64 (doe - a)

/-- Months from March on. -/
def shiftedMonth (doy : Int) : Option Int :=
  (checked 64 (5 * doy)).bind fun a => (checked 64 (a + 2)).map (Int.tdiv · 153)

def dayOfMonth (doy mp : Int) : Option Int :=
  (checked 64 (153 * mp)).bind fun a =>
    (checked 64 (a + 2)).bind fun a =>
      (checked 64 (doy - a.tdiv 5)).bind fun d => checked 64 (d + 1)

/-- `civil_from_days` of both; `w` is the width the month and the day are cast to. -/
def civilWith (w : Nat) (z : Int) : Option Date :=
  (checked 64 (z + 719468)).bind fun z =>
    let era := z / 146097
    let doe := z % 146097
    (yearOfEra doe).bind fun yoe =>
      (checked 64 (era * 400)).bind fun base =>
        (checked 64 (yoe + base)).bind fun y =>
          (dayOfYear doe yoe).bind fun doy =>
            (shiftedMonth doy).bind fun mp =>
              (dayOfMonth doy mp).bind fun d =>
                (if mp < 10 then checked 64 (mp + 3) else checked 64 (mp - 9)).bind fun m =>
                  let m := (m % 2 ^ w).toNat
                  (if m ≤ 2 then checked 64 (y + 1) else some y).map fun y =>
                    ⟨y, m, (d % 2 ^ w).toNat⟩

/-! ## The binlog reader's copy -/

/-- An unsigned difference. -/
def minus (a b : Nat) : Option Nat := if b ≤ a then some (a - b) else none

def yearOfEraU (doe : Nat) : Option Nat :=
  (minus doe (doe / 1460)).bind fun a =>
    (checkedNat 64 (a + doe / 36524)).bind fun a => (minus a (doe / 146096)).map (· / 365)

def dayOfYearU (doe yoe : Nat) : Option Nat :=
  (checkedNat 64 (365 * yoe)).bind fun a =>
    (checkedNat 64 (a + yoe / 4)).bind fun a => (minus a (yoe / 100)).bind fun a => minus doe a

def shiftedMonthU (doy : Nat) : Option Nat :=
  (checkedNat 64 (5 * doy)).bind fun a => (checkedNat 64 (a + 2)).map (· / 153)

def dayOfMonthU (doy mp : Nat) : Option Nat :=
  (checkedNat 64 (153 * mp)).bind fun a =>
    (checkedNat 64 (a + 2)).bind fun a =>
      (minus doy (a / 5)).bind fun d => checkedNat 64 (d + 1)

def civilBinlog (z : Int) : Option Date :=
  (checked 64 (z + 719468)).bind fun z =>
    (if 0 ≤ z then some z else checked 64 (z - 146096)).bind fun shifted =>
      let era := shifted.tdiv 146097
      (checked 64 (era * 146097)).bind fun days =>
        (checked 64 (z - days)).bind fun doe =>
          let doe := (doe % 2 ^ 64).toNat
          (yearOfEraU doe).bind fun yoe =>
            (checked 64 (era * 400)).bind fun base =>
              (checked 64 (yoe + base)).bind fun y =>
                (dayOfYearU doe yoe).bind fun doy =>
                  (shiftedMonthU doy).bind fun mp =>
                    (dayOfMonthU doy mp).bind fun d =>
                      (if mp < 10 then checkedNat 64 (mp + 3) else minus mp 9).bind fun m =>
                        let m := m % 2 ^ 32
                        (if m ≤ 2 then checked 64 (y + 1) else some y).map fun y =>
                          ⟨y, m, d % 2 ^ 32⟩

/-! ## What they give -/

theorem checked_small {a : Int} (low : -2 ^ 62 ≤ a) (high : a < 2 ^ 62) :
    checked 64 a = some a :=
  checked_of_fits ⟨by norm_num at low ⊢; omega, by norm_num at high ⊢; omega⟩

theorem checkedNat_small {n : Nat} (high : n < 2 ^ 62) : checkedNat 64 n = some n :=
  checkedNat_of_lt (by omega)

theorem minus_of_le {a b : Nat} (le : b ≤ a) : minus a b = some (a - b) := if_pos le

/-- What each part of a date stays within. -/
theorem civil_bounds {n : Int} (nonneg : 0 ≤ n) (small : n ≤ 146096) :
    (0 ≤ yearOfCycle n ∧ yearOfCycle n ≤ 399) ∧
      (0 ≤ n - daysBeforeYear (yearOfCycle n) ∧ n - daysBeforeYear (yearOfCycle n) ≤ 365) := by
  obtain ⟨c, q, a, r, c_le, q_le, a_le, r_le, rfl⟩ := exists_parts nonneg small
  rw [yearOfCycle_parts c_le q_le a_le r_le, daysBeforeYear_parts q_le a_le]
  omega

theorem yearOfEra_eq {n : Int} (nonneg : 0 ≤ n) (small : n ≤ 146096) :
    yearOfEra n = some (yearOfCycle n) := by
  have div {b : Int} : n.tdiv b = n / b := Int.tdiv_eq_ediv_of_nonneg nonneg
  rw [yearOfEra, div, div, div, checked_small (by omega) (by omega), Option.bind_some,
    checked_small (by omega) (by omega), Option.bind_some, checked_small (by omega) (by omega),
    Option.map_some, Int.tdiv_eq_ediv_of_nonneg (by omega), yearOfCycle]

theorem dayOfYear_eq {n y : Int} (nonneg : 0 ≤ n) (small : n ≤ 146096) (y_le : 0 ≤ y ∧ y ≤ 399) :
    dayOfYear n y = some (n - daysBeforeYear y) := by
  have div {b : Int} : y.tdiv b = y / b := Int.tdiv_eq_ediv_of_nonneg y_le.1
  rw [dayOfYear, div, div, checked_small (by omega) (by omega), Option.bind_some,
    checked_small (by omega) (by omega), Option.bind_some, checked_small (by omega) (by omega),
    Option.bind_some, checked_small (by omega) (by omega), daysBeforeYear]

theorem shiftedMonth_eq {r : Int} (r_le : 0 ≤ r ∧ r ≤ 365) :
    shiftedMonth r = some (monthOfDay r) := by
  rw [shiftedMonth, checked_small (by omega) (by omega), Option.bind_some,
    checked_small (by omega) (by omega), Option.map_some,
    Int.tdiv_eq_ediv_of_nonneg (by omega), monthOfDay]

theorem dayOfMonth_eq {r m : Int} (r_le : 0 ≤ r ∧ r ≤ 365) (m_le : 0 ≤ m ∧ m ≤ 11) :
    dayOfMonth r m = some (r - (153 * m + 2) / 5 + 1) := by
  rw [dayOfMonth, checked_small (by omega) (by omega), Option.bind_some,
    checked_small (by omega) (by omega), Option.bind_some,
    Int.tdiv_eq_ediv_of_nonneg (by omega), checked_small (by omega) (by omega), Option.bind_some,
    checked_small (by omega) (by omega)]

theorem day_le (r : Int) :
    1 ≤ r - (153 * monthOfDay r + 2) / 5 + 1 ∧ r - (153 * monthOfDay r + 2) / 5 + 1 ≤ 31 := by
  rw [monthOfDay]
  omega

/-- A small part is kept by its cast. -/
theorem cast_small {w : Nat} {a : Int} (wide : 8 ≤ w) (nonneg : 0 ≤ a) (small : a ≤ 31) :
    a % 2 ^ w = a := by
  have byte : (2 : Int) ^ 8 ≤ 2 ^ w := pow_le_pow_right₀ (by decide) wide
  exact Int.emod_eq_of_lt nonneg (by omega)

/-- The Postgres copies give the date of the day. -/
theorem civilWith_eq {w : Nat} {z : Int} (wide : 8 ≤ w) (low : -2 ^ 60 ≤ z) (high : z < 2 ^ 60) :
    civilWith w z = some (civil z) := by
  obtain ⟨n, day⟩ : ∃ n, (z + 719468) % 146097 = n := ⟨_, rfl⟩
  obtain ⟨k, cycle⟩ : ∃ k, (z + 719468) / 146097 = k := ⟨_, rfl⟩
  have nonneg : 0 ≤ n := by omega
  have small : n ≤ 146096 := by omega
  obtain ⟨year, left⟩ := civil_bounds nonneg small
  have months := monthOfDay_le left.1 left.2
  rw [civilWith, checked_small (by omega) (by omega), Option.bind_some]
  simp only [day, cycle]
  rw [yearOfEra_eq nonneg small, Option.bind_some, checked_small (by omega) (by omega),
    Option.bind_some, checked_small (by omega) (by omega), Option.bind_some,
    dayOfYear_eq nonneg small year, Option.bind_some, shiftedMonth_eq left, Option.bind_some,
    dayOfMonth_eq left months, Option.bind_some]
  obtain ⟨d_pos, d_le⟩ := day_le (n - daysBeforeYear (yearOfCycle n))
  have next : checked 64 (yearOfCycle n + k * 400 + 1) = some (yearOfCycle n + k * 400 + 1) :=
    checked_small (by omega) (by omega)
  have base : civil z = ofMarch (yearOfCycle n + k * 400) (n - daysBeforeYear (yearOfCycle n)) := by
    rw [civil, day, cycle]
  rw [base, ofMarch]
  generalize n - daysBeforeYear (yearOfCycle n) = r at *
  generalize yearOfCycle n + k * 400 = y at *
  generalize month : (if monthOfDay r < 10 then monthOfDay r + 3 else monthOfDay r - 9) = m
  have taken : (if monthOfDay r < 10 then checked 64 (monthOfDay r + 3)
      else checked 64 (monthOfDay r - 9)) = some m := by
    split at month
    · rw [if_pos ‹_›, checked_small (by omega) (by omega), month]
    · rw [if_neg ‹_›, checked_small (by omega) (by omega), month]
  rw [taken, Option.bind_some, cast_small wide (by omega) (by omega),
    cast_small wide (by omega) (by omega)]
  have first : m.toNat ≤ 2 ↔ m ≤ 2 := by omega
  simp only [first]
  split
  · rw [next, Option.map_some]
  · rfl

/-! The unsigned steps follow the signed ones. -/

theorem yearOfEraU_eq {n : Nat} (small : n ≤ 146096) :
    yearOfEraU n = some (yearOfCycle n).toNat := by
  have whole : (((n - n / 1460 + n / 36524 - n / 146096 : Nat)) : Int) =
      (n : Int) - n / 1460 + n / 36524 - n / 146096 := by omega
  rw [yearOfEraU, minus_of_le (by omega), Option.bind_some, checkedNat_small (by omega),
    Option.bind_some, minus_of_le (by omega), Option.map_some, yearOfCycle, ← whole]
  rfl

theorem dayOfYearU_eq {n y : Nat} (small : y ≤ 399) (before : daysBeforeYear y ≤ n) :
    dayOfYearU n y = some (n - daysBeforeYear y).toNat := by
  rw [daysBeforeYear] at before ⊢
  rw [dayOfYearU, checkedNat_small (by omega), Option.bind_some, checkedNat_small (by omega),
    Option.bind_some, minus_of_le (by omega), Option.bind_some, minus_of_le (by omega)]
  congr 1
  omega

theorem shiftedMonthU_eq {r : Nat} (small : r ≤ 365) :
    shiftedMonthU r = some (monthOfDay r).toNat := by
  rw [shiftedMonthU, checkedNat_small (by omega), Option.bind_some, checkedNat_small (by omega),
    Option.map_some, monthOfDay]
  congr 1

theorem dayOfMonthU_eq {r : Nat} (small : r ≤ 365) :
    dayOfMonthU r (monthOfDay r).toNat = some (r - (153 * monthOfDay r + 2) / 5 + 1).toNat := by
  have months := monthOfDay_le (Int.natCast_nonneg r) (by omega)
  have start := day_le r
  rw [dayOfMonthU, checkedNat_small (by omega), Option.bind_some, checkedNat_small (by omega),
    Option.bind_some, minus_of_le (by omega), Option.bind_some, checkedNat_small (by omega)]
  congr 1
  omega

/-- A shifted division rounds down. -/
theorem shifted_tdiv (z : Int) :
    (if 0 ≤ z then z else z - 146096).tdiv 146097 = z / 146097 := by
  split
  · rw [Int.tdiv_eq_ediv_of_nonneg ‹_›]
  · have below : z - 146096 < 0 := by omega
    rw [← Int.neg_neg (z - 146096), Int.neg_tdiv, Int.tdiv_eq_ediv_of_nonneg (by omega)]
    omega

/-- The binlog reader's copy gives the date of the day. -/
theorem civilBinlog_eq {z : Int} (low : -2 ^ 60 ≤ z) (high : z < 2 ^ 60) :
    civilBinlog z = some (civil z) := by
  obtain ⟨n, day⟩ : ∃ n : Nat, (z + 719468) % 146097 = n :=
    ⟨_, (Int.toNat_of_nonneg (by omega)).symm⟩
  obtain ⟨k, cycle⟩ : ∃ k, (z + 719468) / 146097 = k := ⟨_, rfl⟩
  have small : n ≤ 146096 := by omega
  obtain ⟨year, left⟩ := civil_bounds (Int.natCast_nonneg n) (by omega)
  obtain ⟨y, year_is⟩ : ∃ y : Nat, yearOfCycle n = y :=
    ⟨_, (Int.toNat_of_nonneg year.1).symm⟩
  obtain ⟨r, day_is⟩ : ∃ r : Nat, (n : Int) - daysBeforeYear y = r := by
    rw [year_is] at left
    exact ⟨_, (Int.toNat_of_nonneg left.1).symm⟩
  rw [year_is] at year left
  rw [day_is] at left
  have short : r ≤ 365 := by omega
  obtain ⟨mp_low, mp_high⟩ := monthOfDay_le left.1 left.2
  obtain ⟨d_pos, d_le⟩ := day_le r
  have shifts : (if 0 ≤ z + 719468 then some (z + 719468) else checked 64 (z + 719468 - 146096)) =
      some (if 0 ≤ z + 719468 then z + 719468 else z + 719468 - 146096) := by
    split
    · rfl
    · rw [checked_small (by omega) (by omega)]
  have next : checked 64 ((y : Int) + k * 400 + 1) = some ((y : Int) + k * 400 + 1) :=
    checked_small (by omega) (by omega)
  have word : ((n : Int) % 2 ^ 64).toNat = n := by omega
  rw [civilBinlog, checked_small (by omega) (by omega), Option.bind_some, shifts, Option.bind_some]
  simp only [shifted_tdiv, cycle]
  rw [checked_small (by omega) (by omega), Option.bind_some, checked_small (by omega) (by omega),
    Option.bind_some]
  have rest : z + 719468 - k * 146097 = n := by omega
  simp only [rest, word]
  rw [yearOfEraU_eq small, Option.bind_some, checked_small (by omega) (by omega), Option.bind_some,
    checked_small (by omega) (by omega), Option.bind_some, year_is, Int.toNat_natCast,
    dayOfYearU_eq (by omega) (by omega), Option.bind_some, day_is, Int.toNat_natCast,
    shiftedMonthU_eq short, Option.bind_some, dayOfMonthU_eq short, Option.bind_some]
  have base : civil z = ofMarch (y + k * 400) r := by
    rw [civil, day, cycle, year_is, day_is]
  rw [base, ofMarch]
  generalize (y : Int) + k * 400 = y at *
  generalize month : (if monthOfDay r < 10 then monthOfDay r + 3 else monthOfDay r - 9) = m
  have taken : (if (monthOfDay r).toNat < 10 then checkedNat 64 ((monthOfDay r).toNat + 3)
      else minus (monthOfDay r).toNat 9) = some m.toNat := by
    split at month
    · rw [if_pos (by omega), checkedNat_small (by omega)]
      congr 1
      omega
    · rw [if_neg (by omega), minus_of_le (by omega)]
      congr 1
      omega
  have first : m.toNat ≤ 2 ↔ m ≤ 2 := by omega
  rw [taken, Option.bind_some, Nat.mod_eq_of_lt (by omega), Nat.mod_eq_of_lt (by omega)]
  simp only [first]
  split
  · rw [next, Option.map_some]
  · rfl

end Apitap.Days
