import Apitap.Wire.BinlogCell
import Mathlib.Tactic.Linarith
import Mathlib.Tactic.Positivity

/-!
# Temporal values, packed and decoded

TIME, DATETIME and TIMESTAMP values with a number of fraction digits, as a server packs them:
a TIME as one signed number biased to be positive, a DATETIME field by field, a TIMESTAMP as
seconds since 1970. Decoding gives each value's text.
-/

namespace Apitap.Rows

open Foundation Decimal Calendar
open Copy (be fromBe length_be fromBe_be)

/-- Microseconds with no digit past the declared ones. -/
structure Fraction where
  fsp : Nat
  micros : Nat
  fsp_le : fsp ≤ 6
  micros_lt : micros < 10 ^ 6
  declared : 10 ^ (6 - fsp) ∣ micros

namespace Fraction

variable (f : Fraction)

/-- The digits declared. -/
def digits : List Nat := Radix.digits 10 f.fsp (f.micros / 10 ^ (6 - f.fsp))

/-- A point and the digits declared, if any. -/
def text : Bytes := if 0 < f.fsp then 46 :: ascii f.digits else []

/-- The tail of a DATETIME or TIMESTAMP. -/
def packed : Bytes :=
  if f.fsp = 0 then []
  else if f.fsp ≤ 2 then be 1 (f.micros / 10000)
  else if f.fsp ≤ 4 then be 2 (f.micros / 100)
  else be 3 f.micros

end Fraction

theorem fracDigits_eq {n v : Nat} (fits : v < 10 ^ n) :
    fracDigits n v = ascii (Radix.digits 10 n v) := by
  induction n generalizing v with
  | zero => rfl
  | succ n ih =>
      have digit : v / 10 ^ n < 10 := Nat.div_lt_of_lt_mul (by rwa [pow_succ] at fits)
      have byte : v / 10 ^ n % 256 = v / 10 ^ n := Nat.mod_eq_of_lt (by omega)
      rw [fracDigits, byte, ih (Nat.mod_lt _ (by positivity)), Radix.digits_front (by decide) fits]
      rfl

namespace Fraction

variable {f : Fraction}

theorem digits_fit : f.micros / 10 ^ (6 - f.fsp) < 10 ^ f.fsp := by
  refine Nat.div_lt_of_lt_mul ?_
  rw [← pow_add, Nat.sub_add_cancel f.fsp_le]
  exact f.micros_lt

theorem pushFrac_eq : pushFrac f.micros f.fsp = f.text := by
  rw [pushFrac, text, Nat.min_eq_left f.fsp_le, fracDigits_eq digits_fit, digits]

/-- Microseconds in the steps that are stored. -/
theorem step {k : Nat} (stored : k ≤ 6 - f.fsp) : 10 ^ k ∣ f.micros :=
  (pow_dvd_pow 10 stored).trans f.declared

theorem reads : (readFrac f.fsp).Reads f.packed f.micros := by
  have small := f.micros_lt
  rw [readFrac, packed]
  split
  case isTrue none =>
      have whole := step (f := f) (k := 6) (by omega)
      rw [Nat.eq_zero_of_dvd_of_lt whole small]
      exact Cursor.reads_ret 0
  case isFalse =>
      split
      case isTrue two =>
          have whole : 10000 ∣ f.micros := step (k := 4) (by omega)
          refine (u8_reads (v := f.micros / 10000) (by omega)).andThen_nil ?_
          rw [Nat.div_mul_cancel whole]
          exact Cursor.reads_ret f.micros
      case isFalse =>
          split
          case isTrue four =>
              have whole : 100 ∣ f.micros := step (k := 2) (by omega)
              refine (uintBe_reads (v := f.micros / 100) (by omega)).andThen_nil ?_
              rw [Nat.div_mul_cancel whole]
              exact Cursor.reads_ret f.micros
          case isFalse => exact uintBe_reads (by omega)

end Fraction

/-! ## Texts -/

/-- `YYYY-MM-DD`. -/
def showDate (y m d : Nat) : Bytes :=
  ascii (Radix.digits 10 4 y) ++ 45 :: ascii (Radix.digits 10 2 m) ++
    45 :: ascii (Radix.digits 10 2 d)

/-- `HH:MM:SS`. -/
def showClock (h m s : Nat) : Bytes :=
  ascii (Radix.digits 10 2 h) ++ 58 :: ascii (Radix.digits 10 2 m) ++
    58 :: ascii (Radix.digits 10 2 s)

theorem push2_eq (v : Nat) : push2 v = Radix.digits 10 2 v := by
  simp only [push2, Radix.digits, List.nil_append, List.cons_append, List.cons.injEq, and_true]
  omega

theorem pushYear_eq {y : Nat} (small : y < 10000) : pushYear y = Radix.digits 10 4 y := by
  rw [pushYear, if_pos small]
  simp only [push2, Radix.digits, List.nil_append, List.cons_append, List.cons.injEq, and_true]
  omega

/-- Six digits two by two. -/
theorem sixDigits_eq {v : Nat} (small : v < 10 ^ 6) :
    ascii (push2 (v / 10000)) ++ ascii (push2 (v / 100 % 100)) ++ ascii (push2 (v % 100)) =
      ascii (Radix.digits 10 6 v) := by
  rw [← ascii_append, ← ascii_append]
  congr 1
  simp only [push2, Radix.digits, List.nil_append, List.cons_append, List.cons.injEq, and_true]
  omega

theorem dateText_eq {y : Nat} (m d : Nat) (small : y < 10000) :
    dateText y m d = showDate y m d := by
  rw [dateText, pushYear_eq small, push2_eq, push2_eq, showDate]

theorem clockText_eq (h m s : Nat) : clockText h m s = showClock h m s := by
  rw [clockText, push2_eq, push2_eq, push2_eq, showClock]

/-! ## DATETIME -/

structure Datetime where
  year : Nat
  month : Nat
  day : Nat
  hour : Nat
  minute : Nat
  second : Nat
  fraction : Fraction
  year_le : year ≤ 9999
  month_le : month ≤ 12
  day_le : day ≤ 31
  hour_lt : hour < 24
  minute_lt : minute < 60
  second_lt : second < 60

namespace Datetime

variable (v : Datetime)

/-- The fields in their bits, with the sign bit of a positive value. -/
def word : Nat :=
  2 ^ 39 + (((v.year * 13 + v.month) * 2 ^ 5 + v.day) * 2 ^ 17 + v.hour * 2 ^
    12 + v.minute * 2 ^ 6 +
    v.second)

def packed : Bytes := be 5 v.word ++ v.fraction.packed

def text : Bytes :=
  showDate v.year v.month v.day ++ 32 :: showClock v.hour v.minute v.second ++ v.fraction.text

variable {v}

theorem word_fields :
    v.word % 2 ^ 39 / 2 ^ 22 % 2 ^ 17 = v.year * 13 + v.month ∧
      v.word % 2 ^ 39 / 2 ^ 17 % 2 ^ 5 = v.day ∧ v.word % 2 ^ 39 / 2 ^ 12 % 2 ^ 5 = v.hour ∧
      v.word % 2 ^ 39 / 2 ^ 6 % 2 ^ 6 = v.minute ∧ v.word % 2 ^ 39 % 2 ^ 6 = v.second := by
  have year := v.year_le
  have month := v.month_le
  have day := v.day_le
  have hour := v.hour_lt
  have minute := v.minute_lt
  have second := v.second_lt
  rw [word]
  omega

theorem word_lt : v.word < 256 ^ 5 := by
  have year := v.year_le
  have month := v.month_le
  have day := v.day_le
  have hour := v.hour_lt
  have minute := v.minute_lt
  have second := v.second_lt
  rw [word]
  omega

theorem datetime_reads : (datetime2 v.fraction.fsp).Reads v.packed v.text := by
  obtain ⟨ym, day, hour, minute, second⟩ := word_fields (v := v)
  have month := v.month_le
  have small := v.year_le
  have parts : (v.year * 13 + v.month) / 13 = v.year ∧ (v.year * 13 + v.month) % 13 = v.month := by
    omega
  rw [datetime2, packed]
  refine (uintBe_reads word_lt).andThen ?_
  simp only [ym, day, hour, minute, second, parts]
  refine v.fraction.reads.andThen_nil ?_
  rw [dateText_eq _ _ (by omega), clockText_eq, Fraction.pushFrac_eq]
  exact Cursor.reads_ret _

end Datetime

/-! ## TIMESTAMP -/

/-- A civil date and time of the seconds that fit 32 bits. -/
structure Timestamp where
  date : Date
  hour : Nat
  minute : Nat
  second : Nat
  fraction : Fraction
  valid : date.Valid
  hour_lt : hour < 24
  minute_lt : minute < 60
  second_lt : second < 60
  nonneg : 0 ≤ date.number * 86400 + hour * 3600 + minute * 60 + second
  fits : date.number * 86400 + hour * 3600 + minute * 60 + second < 2 ^ 32

namespace Timestamp

variable (v : Timestamp)

def secs : Int := v.date.number * 86400 + v.hour * 3600 + v.minute * 60 + v.second

def packed : Bytes := be 4 v.secs.toNat ++ v.fraction.packed

/-- Second 0 of 1970 stands for the zero value; no fraction is shown for a whole second. -/
def text : Bytes :=
  if v.secs = 0 ∧ v.fraction.micros = 0 then
    showDate 0 0 0 ++ 32 :: showClock 0 0 0 ++ [43, 48, 48]
  else
    showDate v.date.year.toNat v.date.month v.date.day ++
      32 :: showClock v.hour v.minute v.second ++
        (if 0 < v.fraction.micros then 46 :: ascii (Radix.digits 10 6 v.fraction.micros) else []) ++
          [43, 48, 48]

variable {v}

theorem fmtEpoch_eq : fmtEpoch v.secs v.fraction.micros =
    .ok (showDate v.date.year.toNat v.date.month v.date.day ++
      32 :: showClock v.hour v.minute v.second ++
        (if 0 < v.fraction.micros then 46 :: ascii (Radix.digits 10 6 v.fraction.micros) else []) ++
          [43, 48, 48]) := by
  have hour := v.hour_lt
  have minute := v.minute_lt
  have second := v.second_lt
  have low := v.nonneg
  have high := v.fits
  have days : v.secs / 86400 = v.date.number := by
    rw [secs]
    omega
  have rest : (v.secs % 86400).toNat = v.hour * 3600 + v.minute * 60 + v.second := by
    rw [secs]
    omega
  have clock : (v.hour * 3600 + v.minute * 60 + v.second) / 3600 = v.hour ∧
      (v.hour * 3600 + v.minute * 60 + v.second) % 3600 / 60 = v.minute ∧
      (v.hour * 3600 + v.minute * 60 + v.second) % 60 = v.second := by omega
  have years := v.valid.number_bounds
  have small : v.date.year.toNat < 10000 := by omega
  have micros := v.fraction.micros_lt
  rw [fmtEpoch, days, Days.civilBinlog_eq (by omega) (by omega), v.valid.civil_number,
    Stop.orPanic_some, Stop.ok_bind, rest]
  simp only [clock, dateText_eq _ _ small, clockText_eq]
  split
  case isTrue some =>
      rw [if_neg (by omega), ← sixDigits_eq micros]
      simp only [List.append_assoc, List.cons_append]
  case isFalse none => rw [List.append_nil]

theorem timestamp_reads : (timestamp2 v.fraction.fsp).Reads v.packed v.text := by
  have low := v.nonneg
  have high := v.fits
  have back : (v.secs.toNat : Int) = v.secs := Int.toNat_of_nonneg low
  have zero : v.secs.toNat = 0 ∧ v.fraction.micros = 0 ↔ v.secs = 0 ∧ v.fraction.micros = 0 := by
    omega
  rw [timestamp2, packed]
  refine (uintBe_reads (by rw [secs]; omega)).andThen (v.fraction.reads.andThen_nil ?_)
  rw [text]
  by_cases none : v.secs = 0 ∧ v.fraction.micros = 0
  · rw [if_pos (zero.mpr none), if_pos none]
    exact Cursor.reads_ret zeroTimestamp
  · rw [if_neg (mt zero.mp none), if_neg none, back]
    exact Cursor.reads_lift fmtEpoch_eq

end Timestamp

/-! ## TIME -/

/-- A signed interval; zero has no sign. -/
structure Time where
  neg : Bool
  hour : Nat
  minute : Nat
  second : Nat
  fraction : Fraction
  hour_le : hour ≤ 838
  minute_lt : minute < 60
  second_lt : second < 60
  zero : hour = 0 → minute = 0 → second = 0 → fraction.micros = 0 → neg = false

namespace Time

variable (v : Time)

def clock : Nat := v.hour * 2 ^ 12 + v.minute * 2 ^ 6 + v.second

/-- The whole value as one signed number. -/
def number : Int :=
  (if v.neg then -1 else 1) * (v.clock * 2 ^ 24 + v.fraction.micros)

/-- The integer part rounded down and the fraction rounded to zero, each in its own bytes; with
five or six digits all in one. -/
def packed : Bytes :=
  if v.fraction.fsp = 0 then be 3 (v.number / 2 ^ 24 + 0x800000).toNat
  else if v.fraction.fsp ≤ 2 then
    be 3 (v.number / 2 ^ 24 + 0x800000).toNat ++
      be 1 ((v.number.tmod (2 ^ 24)).tdiv 10000 % 256).toNat
  else if v.fraction.fsp ≤ 4 then
    be 3 (v.number / 2 ^ 24 + 0x800000).toNat ++
      be 2 ((v.number.tmod (2 ^ 24)).tdiv 100 % 65536).toNat
  else be 6 (v.number + 0x800000000000).toNat

/-- Two digits of hours, or three from a hundred on. -/
def text : Bytes :=
  (if v.neg then [45] else []) ++
    (ascii (if v.hour < 100 then Radix.digits 10 2 v.hour else Radix.digits 10 3 v.hour) ++
      58 :: ascii (Radix.digits 10 2 v.minute) ++ 58 :: ascii (Radix.digits 10 2 v.second)) ++
    v.fraction.text

variable {v}

theorem clock_lt : v.clock < 2 ^ 22 := by
  have hour := v.hour_le
  have minute := v.minute_lt
  have second := v.second_lt
  rw [clock]
  omega

theorem number_fits : -2 ^ 47 < v.number ∧ v.number < 2 ^ 47 := by
  have clock := clock_lt (v := v)
  have micros := v.fraction.micros_lt
  rw [number]
  split
  · omega
  · omega

theorem number_neg (neg : v.neg = true) :
    v.number = -((v.clock * 2 ^ 24 + v.fraction.micros : Nat) : Int) := by
  rw [number, if_pos neg]
  push_cast
  ring

theorem number_pos (pos : v.neg = false) :
    v.number = (v.clock * 2 ^ 24 + v.fraction.micros : Nat) := by
  rw [number, if_neg (by rw [pos]; exact Bool.false_ne_true)]
  push_cast
  ring

/-- The fraction with the sign of the whole, in the steps that are stored. -/
theorem fraction_part {s q : Nat} (positive : 0 < s) (whole : v.fraction.micros = q * s) :
    (v.number.tmod (2 ^ 24)).tdiv s = if v.neg then -(q : Int) else q := by
  have micros := v.fraction.micros_lt
  have rest : ((v.clock * 2 ^ 24 + v.fraction.micros : Nat) : Int).tmod (2 ^ 24) =
      v.fraction.micros := by
    rw [Int.tmod_eq_emod_of_nonneg (Int.natCast_nonneg _)]
    omega
  have steps : (v.fraction.micros : Int).tdiv s = q := by
    rw [Int.tdiv_eq_ediv_of_nonneg (Int.natCast_nonneg _), whole]
    exact_mod_cast Nat.mul_div_cancel q positive
  cases neg : v.neg with
  | true => rw [number_neg neg, Int.neg_tmod, rest, Int.neg_tdiv, steps, if_pos rfl]
  | false => rw [number_pos neg, rest, steps, if_neg Bool.false_ne_true]

/-- The two parts as stored make the number again. -/
theorem joined {s q m : Nat} (positive : 0 < s) (whole : v.fraction.micros = q * s) (less : q < m) :
    joinTime (v.number / 2 ^ 24 + 0x800000).toNat ((v.number.tmod (2 ^ 24)).tdiv s % m).toNat m s =
      v.number := by
  have micros := v.fraction.micros_lt
  have clock := clock_lt (v := v)
  have fits := number_fits (v := v)
  have biased : ((v.number / 2 ^ 24 + 0x800000).toNat : Int) - 0x800000 = v.number / 2 ^ 24 := by
    omega
  have scaled : (q : Int) * s = v.fraction.micros := by exact_mod_cast whole.symm
  rw [joinTime, biased, fraction_part positive whole]
  cases neg : v.neg with
  | false =>
      have number := number_pos neg
      have floor : v.number / 2 ^ 24 = v.clock := by omega
      have same : ((q : Int) % m).toNat = q := by
        rw [Int.emod_eq_of_lt (Int.natCast_nonneg q) (by omega), Int.toNat_natCast]
      rw [if_neg Bool.false_ne_true, floor, same]
      rw [if_neg (fun both => absurd both.1 (Int.not_lt.mpr (Int.natCast_nonneg _))),
        scaled, number]
      push_cast
      rfl
  | true =>
      have number := number_neg neg
      rw [if_pos rfl]
      by_cases none : q = 0
      · have zero : v.fraction.micros = 0 := by rw [whole, none, Nat.zero_mul]
        have floor : v.number / 2 ^ 24 = -v.clock := by omega
        have same : ((-(q : Int)) % m).toNat = 0 := by rw [none]; rfl
        simp only [same, floor]
        rw [if_neg (fun both => both.2 rfl), number, zero]
        push_cast
        ring
      · have some : 0 < v.fraction.micros := by
          rw [whole]
          positivity
        have floor : v.number / 2 ^ 24 = -v.clock - 1 := by omega
        have same : (((-(q : Int)) % m).toNat : Int) = m - q := by
          have turned : -(q : Int) % m = m - q := by
            rw [← Int.add_emod_right, Int.emod_eq_of_lt (by omega) (by omega)]
            ring
          rw [turned]
          omega
        simp only [same, floor]
        rw [if_pos ⟨by omega, by omega⟩, number]
        push_cast
        linarith

theorem packed_reads : (packedTime v.fraction.fsp).Reads v.packed v.number := by
  have fits := number_fits (v := v)
  have int : (v.number / 2 ^ 24 + 0x800000).toNat < 256 ^ 3 := by omega
  have micros := v.fraction.micros_lt
  rw [packedTime, packed]
  split
  case isTrue none =>
      have whole := Fraction.step (f := v.fraction) (k := 6) (by omega)
      have zero := Nat.eq_zero_of_dvd_of_lt whole micros
      refine (uintBe_reads int).andThen_nil ?_
      have same : (((v.number / 2 ^ 24 + 0x800000).toNat : Int) - 0x800000) * 2 ^ 24 =
        v.number := by
        have exact_ : v.number % 2 ^ 24 = 0 := by
          cases neg : v.neg with
          | true =>
              have number := number_neg neg
              omega
          | false =>
              have number := number_pos neg
              omega
        omega
      rw [same]
      exact Cursor.reads_ret _
  case isFalse =>
      split
      case isTrue two =>
          obtain ⟨q, whole⟩ : 10000 ∣ v.fraction.micros := Fraction.step (k := 4) (by omega)
          refine (uintBe_reads int).andThen ?_
          refine (u8_reads (by omega)).andThen_nil ?_
          have same : joinTime (v.number / 2 ^ 24 + 0x800000).toNat
              ((v.number.tmod (2 ^ 24)).tdiv 10000 % 256).toNat 0x100 10000 = v.number :=
            joined (s := 10000) (m := 256) (by decide) (whole.trans (Nat.mul_comm _ _)) (by omega)
          rw [same]
          exact Cursor.reads_ret _
      case isFalse =>
          split
          case isTrue four =>
              obtain ⟨q, whole⟩ : 100 ∣ v.fraction.micros := Fraction.step (k := 2) (by omega)
              refine (uintBe_reads int).andThen ?_
              refine (uintBe_reads (by omega)).andThen_nil ?_
              have same : joinTime (v.number / 2 ^ 24 + 0x800000).toNat
                  ((v.number.tmod (2 ^ 24)).tdiv 100 % 65536).toNat 0x10000 100 = v.number :=
                joined (s := 100) (m := 65536) (by decide) (whole.trans (Nat.mul_comm _ _))
                  (by omega)
              rw [same]
              exact Cursor.reads_ret _
          case isFalse =>
              obtain ⟨n, biased⟩ : ∃ n : Nat, v.number + 0x800000000000 = n :=
                ⟨_, (Int.toNat_of_nonneg (by omega)).symm⟩
              have halves : be 6 n = be 3 (n / 256 ^ 3) ++ be 3 (n % 256 ^ 3) := by
                have low : Radix.digits 256 3 (n % 256 ^ 3) = Radix.digits 256 3 n := by
                  simp only [Radix.digits, List.nil_append, List.cons_append, List.cons.injEq,
                    and_true]
                  omega
                rw [be, be, be, ← List.map_append, low, ← Radix.digits_add]
              rw [biased, Int.toNat_natCast, halves]
              refine (uintBe_reads (by omega)).andThen ?_
              refine (uintBe_reads (Nat.mod_lt _ (by decide))).andThen_nil ?_
              have same : ((n / 256 ^ 3 : Nat) : Int) * 2 ^ 24 + (n % 256 ^ 3 : Nat) -
                  0x800000000000 = v.number := by omega
              rw [same]
              exact Cursor.reads_ret _

theorem natAbs_number : v.number.natAbs = v.clock * 2 ^ 24 + v.fraction.micros := by
  cases neg : v.neg with
  | true => rw [number_neg neg, Int.natAbs_neg, Int.natAbs_natCast]
  | false => rw [number_pos neg, Int.natAbs_natCast]

/-- The sign is shown where it is not of a zero. -/
theorem sign_shown : (v.number < 0 ∧ v.number.natAbs ≠ 0) ↔ v.neg = true := by
  cases neg : v.neg with
  | false =>
      rw [number_pos neg]
      simp only [Bool.false_eq_true, iff_false, not_and]
      intro below
      omega
  | true =>
      have some : 0 < v.clock * 2 ^ 24 + v.fraction.micros := by
        by_contra none
        have plain := v.zero
        have clock : v.clock = 0 := by omega
        rw [Time.clock] at clock
        rw [plain (by omega) (by omega) (by omega) (by omega)] at neg
        cases neg
      rw [natAbs_number, number_neg neg]
      simp only [iff_true]
      omega

theorem hours_shown {h : Nat} (small : h < 1000) :
    (if h < 100 then push2 h else itoa h) =
      if h < 100 then Radix.digits 10 2 h else Radix.digits 10 3 h := by
  split
  case isTrue => exact push2_eq h
  case isFalse large =>
      have first : h / 10 / 10 % 10 ≠ 0 := by omega
      rw [← plain_digits (w := 3) small]
      simp only [Radix.digits, List.nil_append, List.cons_append]
      exact plain_cons first

/-- A TIME value is read back as its text. -/
theorem time_reads : (time2 v.fraction.fsp).Reads v.packed v.text := by
  have clock := clock_lt (v := v)
  have micros := v.fraction.micros_lt
  have hour := v.hour_le
  have minute := v.minute_lt
  have second := v.second_lt
  have whole : v.number.natAbs / 2 ^ 24 % 2 ^ 32 = v.clock := by
    rw [natAbs_number]
    omega
  have rest : v.number.natAbs % 2 ^ 24 = v.fraction.micros := by
    rw [natAbs_number]
    omega
  have fields : v.clock / 2 ^ 12 % 2 ^ 10 = v.hour ∧ v.clock / 2 ^ 6 % 2 ^ 6 = v.minute ∧
      v.clock % 2 ^ 6 = v.second := by
    rw [Time.clock]
    omega
  rw [time2]
  refine packed_reads.andThen_nil ?_
  simp only [whole, rest, fields, sign_shown]
  rw [if_neg (by omega), hours_shown (by omega), push2_eq, push2_eq, Fraction.pushFrac_eq]
  exact Cursor.reads_ret _

end Time

end Apitap.Rows
