import Apitap.Wire.PgBinDec
import Mathlib.Data.List.TakeWhile

/-!
# Dates and timestamps read back

A strict reader of what the replication stream's renderer prints: a year in four digits or in
more with no leading zero, a month and a day that the year has, a time of day with a fraction
that ends in no zero, and a mark for the years before the first. It finds the day or the
instant each text was printed for.
-/

namespace Apitap.BinDec

open Foundation Decimal Calendar
open Days (civilWith_eq)

/-! ## The reader -/

def isDigit (b : UInt8) : Bool := 48 ≤ b ∧ b ≤ 57

/-- The digits in front, and what follows them. -/
def digitRun (t : Bytes) : List Nat × Bytes :=
  ((t.takeWhile isDigit).map fun b => b.toNat - 48, t.dropWhile isDigit)

/-- A byte that has to come next. -/
def expect (b : UInt8) : Bytes → Option Bytes
  | c :: t => if c = b then some t else none
  | [] => none

/-- Two digits. -/
def readTwo (t : Bytes) : Option (Nat × Bytes) :=
  let (ds, t) := digitRun t
  if ds.length = 2 then some (Radix.value 10 ds, t) else none

/-- A year's digits: four, or more without a zero in front. -/
def readYear (t : Bytes) : Option (Nat × Bytes) :=
  let (ds, t) := digitRun t
  if ds.length = 4 ∨ (4 < ds.length ∧ ds.head? ≠ some 0) then some (Radix.value 10 ds, t) else none

/-- `YYYY-MM-DD`. -/
def readDay (t : Bytes) : Option (Date × Bytes) :=
  (readYear t).bind fun (y, t) => (expect 45 t).bind fun t =>
    (readTwo t).bind fun (m, t) => (expect 45 t).bind fun t =>
      (readTwo t).map fun (d, t) => (⟨y, m, d⟩, t)

/-- The end of the text: the number of a date of this era, or of the one before. -/
def readEra (d : Date) (t : Bytes) : Option Int :=
  let d' : Option Date := if t = [] then some d
    else if t = beforeChrist then some { d with year := 1 - d.year }
    else none
  d'.bind fun d' => if 1 ≤ d.year ∧ d'.Valid then some d'.number else none

/-- The day since 1970 that a text denotes. -/
def parseDate (t : Bytes) : Option Int := (readDay t).bind fun (d, t) => readEra d t

/-- A point and up to six digits, the last one no zero; or nothing. -/
def readFraction (t : Bytes) : Option (Nat × Bytes) :=
  match expect 46 t with
  | none => some (0, t)
  | some t =>
      let (ds, t) := digitRun t
      if 0 < ds.length ∧ ds.length ≤ 6 ∧ ds.getLast? ≠ some 0 then
        some (Radix.value 10 ds * 10 ^ (6 - ds.length), t)
      else none

/-- The microsecond of a day. -/
def readClock (t : Bytes) : Option (Nat × Bytes) :=
  (readTwo t).bind fun (h, t) => (expect 58 t).bind fun t =>
    (readTwo t).bind fun (m, t) => (expect 58 t).bind fun t =>
      (readTwo t).bind fun (s, t) => (readFraction t).bind fun (f, t) =>
        if h < 24 ∧ m < 60 ∧ s < 60 then some (((h * 60 + m) * 60 + s) * 1000000 + f, t) else none

/-- `+00`, where a zone is due. -/
def readZone (tz : Bool) (t : Bytes) : Option Bytes :=
  if tz then (expect 43 t).bind fun t => (expect 48 t).bind (expect 48) else some t

/-- The microsecond since 1970 that a text denotes. -/
def parseTimestamp (tz : Bool) (t : Bytes) : Option Int :=
  (readDay t).bind fun (d, t) => (expect 32 t).bind fun t =>
    (readClock t).bind fun (us, t) => (readZone tz t).bind fun t =>
      (readEra d t).map fun day => day * usecsPerDay + us

/-! ## Digits read back -/

/-- No digit comes next. -/
def Stops (t : Bytes) : Prop := ∀ b, t.head? = some b → isDigit b = false

theorem isDigit_ascii {ds : List Nat} (within : ∀ d ∈ ds, d < 10) :
    ∀ b ∈ ascii ds, isDigit b = true := by
  intro b b_mem
  obtain ⟨d, d_mem, rfl⟩ := List.mem_map.mp b_mem
  have code := toNat_ascii (within d d_mem)
  have small := within d d_mem
  rw [isDigit, decide_eq_true_eq, UInt8.le_iff_toNat_le, UInt8.le_iff_toNat_le, code]
  exact ⟨Nat.le_add_right 48 d, show 48 + d ≤ 57 by omega⟩

theorem digitRun_ascii {ds : List Nat} {t : Bytes} (within : ∀ d ∈ ds, d < 10) (stops : Stops t) :
    digitRun (ascii ds ++ t) = (ds, t) := by
  have none : t.takeWhile isDigit = [] ∧ t.dropWhile isDigit = t := by
    cases t with
    | nil => exact ⟨rfl, rfl⟩
    | cons b t =>
        have other := stops b rfl
        rw [List.takeWhile_cons_of_neg (by rw [other]; exact Bool.false_ne_true),
          List.dropWhile_cons_of_neg (by rw [other]; exact Bool.false_ne_true)]
        exact ⟨rfl, rfl⟩
  rw [digitRun, List.takeWhile_append_of_pos (isDigit_ascii within),
    List.dropWhile_append_of_pos (isDigit_ascii within), none.1, none.2, List.append_nil,
    map_ascii within]

theorem stops_cons {b : UInt8} (t : Bytes) (other : isDigit b = false) : Stops (b :: t) := by
  intro c is
  obtain rfl : b = c := Option.some.inj is
  exact other

theorem readTwo_ascii {ds : List Nat} {t : Bytes} (within : ∀ d ∈ ds, d < 10) (two : ds.length = 2)
    (stops : Stops t) : readTwo (ascii ds ++ t) = some (Radix.value 10 ds, t) := by
  rw [readTwo, digitRun_ascii within stops]
  exact if_pos two

@[simp] theorem expect_cons (b : UInt8) (t : Bytes) : expect b (b :: t) = some t := if_pos rfl

theorem push2_lt {v : Nat} : ∀ d ∈ push2 v, d < 10 := by
  intro d d_mem
  rcases List.mem_cons.mp d_mem with rfl | d_mem
  · exact Nat.mod_lt _ (by decide)
  · rw [List.mem_singleton.mp d_mem]
    exact Nat.mod_lt _ (by decide)

theorem value_push2 {v : Nat} (small : v < 100) : Radix.value 10 (push2 v) = v := by
  rw [push2, Radix.value_cons, Radix.value_singleton]
  simp only [List.length_singleton, pow_one]
  omega

theorem readTwo_push2 {v : Nat} {t : Bytes} (small : v < 100) (stops : Stops t) :
    readTwo (ascii (push2 v) ++ t) = some (v, t) := by
  rw [readTwo_ascii push2_lt rfl stops, value_push2 small]

/-! ## Days -/

/-- The era's own year of a date, counted from one. -/
def shownDate (d : Date) : Date := { d with year := if d.year ≤ 0 then 1 - d.year else d.year }

/-- What stands after a date of the years before the first. -/
def eraText (d : Date) : Bytes := if d.year ≤ 0 then beforeChrist else []

theorem daysIn_le (y : Int) (m : Nat) : daysIn y m ≤ 31 := by
  rw [daysIn]
  split
  · split
    · decide
    · decide
  · split
    · decide
    · decide

theorem length_itoa {n : Nat} (large : 1000 ≤ n) : 4 ≤ (itoa n).length := by
  have below := Radix.value_lt (itoa_lt n)
  rw [value_itoa] at below
  by_contra short
  have power : 10 ^ (itoa n).length ≤ 10 ^ 3 :=
    Nat.pow_le_pow_right (by decide) (by omega)
  omega

theorem head_itoa {n : Nat} (large : 1000 ≤ n) : (itoa n).head? ≠ some 0 := by
  have long := length_itoa large
  have shown : plain (Radix.digits 10 n n) = itoa n := plain_digits (Nat.lt_pow_self (by decide))
  intro zero
  rw [← shown] at zero long
  rw [length_plain_of_head zero] at long
  omega

theorem readYear_ascii {n : Nat} {t : Bytes} (stops : Stops t) :
    readYear (ascii (if (n : Int) < 1000 then
      [n / 1000 % 10, n / 100 % 10, n / 10 % 10, n % 10] else itoa n) ++ t) = some (n, t) := by
  split
  case isTrue small =>
      have digits : [n / 1000 % 10, n / 100 % 10, n / 10 % 10, n % 10] = Radix.digits 10 4 n := by
        simp [Radix.digits, Nat.div_div_eq_div_mul]
      rw [digits, readYear, digitRun_ascii (Radix.digits_lt (by decide)) stops]
      simp only
      rw [if_pos (.inl Radix.length_digits), Radix.value_digits_of_lt (by omega)]
  case isFalse large =>
      have long := length_itoa (n := n) (by omega)
      have more : (itoa n).length = 4 ∨ (4 < (itoa n).length ∧ (itoa n).head? ≠ some 0) := by
        rcases long.lt_or_eq with longer | four
        · exact .inr ⟨longer, head_itoa (by omega)⟩
        · exact .inl four.symm
      rw [readYear, digitRun_ascii (itoa_lt n) stops]
      simp only
      rw [if_pos more, value_itoa]

/-- What a printed day is read back as. -/
theorem pushDate_reads (days : Int) (low : -2 ^ 40 ≤ days) (high : days < 2 ^ 40) :
    ∃ text, pushDate days = some (text, decide ((civil (days + 10957)).year ≤ 0)) ∧
      ∀ rest, Stops rest →
        readDay (text ++ rest) = some (shownDate (civil (days + 10957)), rest) := by
  obtain ⟨valid, number⟩ := civil_spec (days + 10957)
  obtain ⟨after, before⟩ := valid.number_bounds
  obtain ⟨months, d_pos, d_le⟩ := valid
  have short := daysIn_le (civil (days + 10957)).year (civil (days + 10957)).month
  generalize day : civil (days + 10957) = d at *
  have known : civilFromDays (days + 10957) = some d := by
    rw [civilFromDays, civilWith_eq (by decide) (by omega) (by omega), day]
  obtain ⟨n, year⟩ : ∃ n : Nat, (if d.year ≤ 0 then 1 - d.year else d.year) = n := by
    refine ⟨_, (Int.toNat_of_nonneg ?_).symm⟩
    split
    · omega
    · omega
  have disp : (if d.year ≤ 0 then checked 64 (1 - d.year) else some d.year) = some (n : Int) := by
    rw [← year]
    split
    · rw [Days.checked_small (by omega) (by omega)]
    · rfl
  refine ⟨_, by rw [pushDate, pgEpochUnixDays, Days.checked_small (by omega) (by omega),
    Option.bind_some, known, Option.bind_some, disp, Option.map_some], fun rest stops => ?_⟩
  simp only [Int.toNat_natCast, List.append_assoc, List.cons_append]
  rw [readDay, readYear_ascii (stops_cons _ (by decide)), Option.bind_some]
  simp only [expect_cons, Option.bind_some]
  rw [readTwo_push2 (by omega) (stops_cons _ (by decide)), Option.bind_some]
  simp only [expect_cons, Option.bind_some]
  rw [readTwo_push2 (by omega) stops, Option.map_some, shownDate, year]

theorem readEra_shown {d : Date} (valid : d.Valid) :
    readEra (shownDate d) (eraText d) = some d.number := by
  have first : 1 ≤ (shownDate d).year := by
    show 1 ≤ if d.year ≤ 0 then 1 - d.year else d.year
    split
    · omega
    · omega
  rw [readEra, eraText]
  split
  case isTrue before =>
      have back : { shownDate d with year := 1 - (shownDate d).year } = d := by
        simp [shownDate, before]
      rw [if_neg (by decide), if_pos rfl, Option.bind_some, back, if_pos ⟨first, valid⟩]
  case isFalse after =>
      have same : shownDate d = d := by simp [shownDate, after]
      rw [same] at first ⊢
      rw [if_pos rfl, Option.bind_some, if_pos ⟨first, valid⟩]

theorem stops_eraText (d : Date) : Stops (eraText d) := by
  rw [eraText]
  split
  · exact stops_cons _ (by decide)
  · intro b b_mem
    cases b_mem

/-- A printed date is read back as its day. -/
theorem date_parses {days : Int} (low : -2 ^ 31 < days) (high : days < 2 ^ 31 - 1) :
    ∃ text, date days = some text ∧ parseDate text = some (days + 10957) := by
  obtain ⟨text, pushed, back⟩ := pushDate_reads days (by omega) (by omega)
  obtain ⟨valid, number⟩ := civil_spec (days + 10957)
  refine ⟨text ++ eraText (civil (days + 10957)), ?_, ?_⟩
  · rw [date, if_neg (by omega), if_neg (by omega), pushed, Option.map_some, eraText]
    simp only [decide_eq_true_eq]
  · rw [parseDate, back _ (stops_eraText _), Option.bind_some]
    show readEra _ _ = _
    rw [readEra_shown valid, number]

/-! ## Times of a day -/

/-- How many digits stand before the last zeros. -/
def kept (ds : List Nat) : Nat := ds.length - (ds.reverse.takeWhile (· == 0)).length

/-- Digits are those before their last zeros, and these zeros. -/
theorem take_kept (ds : List Nat) :
    ds = ds.take (kept ds) ++ List.replicate (ds.length - kept ds) 0 ∧
      (ds.take (kept ds)).getLast? ≠ some 0 := by
  obtain ⟨zeros, zeros_is⟩ : ∃ z, ds.reverse.takeWhile (· == 0) = z := ⟨_, rfl⟩
  obtain ⟨front, front_is⟩ : ∃ w, ds.reverse.dropWhile (· == 0) = w := ⟨_, rfl⟩
  have whole : ds = front.reverse ++ zeros.reverse := by
    rw [← List.reverse_append, ← zeros_is, ← front_is, List.takeWhile_append_dropWhile,
      List.reverse_reverse]
  have all : zeros.reverse = List.replicate zeros.length 0 := by
    refine List.eq_replicate_iff.mpr ⟨List.length_reverse, fun d d_mem => ?_⟩
    rw [List.mem_reverse, ← zeros_is] at d_mem
    have zero : (d == 0) = true := List.mem_takeWhile_imp (p := (· == 0)) d_mem
    exact beq_iff_eq.mp zero
  have size : ds.length = front.length + zeros.length := by
    rw [whole, List.length_append, List.length_reverse, List.length_reverse]
  have count : kept ds = front.length := by
    rw [kept, zeros_is, size, Nat.add_sub_cancel]
  have taken : ds.take (kept ds) = front.reverse := by
    rw [count, whole]
    exact List.take_left' List.length_reverse
  refine ⟨?_, ?_⟩
  · rw [taken, count, size, Nat.add_sub_cancel_left, ← all]
    exact whole
  · rw [taken, List.getLast?_reverse, ← front_is]
    intro zero
    have other := List.head?_dropWhile_not (· == 0) ds.reverse
    rw [zero] at other
    cases other

/-- The fraction of a second in microseconds, as it is printed. -/
def fractionText (f : Nat) : Bytes :=
  if 0 < f then
    46 :: ascii ((Radix.digits 10 6 f).take (kept (Radix.digits 10 6 f)))
  else []

theorem readFraction_text {f : Nat} {t : Bytes} (small : f < 1000000) (stops : Stops t)
    (plain : expect 46 t = none) : readFraction (fractionText f ++ t) = some (f, t) := by
  rw [fractionText]
  split
  case isTrue pos =>
      obtain ⟨digits, digits_is⟩ : ∃ ds, Radix.digits 10 6 f = ds := ⟨_, rfl⟩
      have six : digits.length = 6 := digits_is ▸ Radix.length_digits
      have value : Radix.value 10 digits = f := digits_is ▸ Radix.value_digits_of_lt small
      have within : ∀ d ∈ digits.take (kept digits), d < 10 := by
        intro d d_mem
        refine Radix.digits_lt (by decide) d (w := 6) (n := f) ?_
        rw [digits_is]
        exact List.mem_of_mem_take d_mem
      obtain ⟨whole, last⟩ := take_kept digits
      have fewer : kept digits ≤ 6 := six ▸ Nat.sub_le _ _
      have size : (digits.take (kept digits)).length = kept digits := by
        rw [List.length_take, six, Nat.min_eq_left fewer]
      have scaled : Radix.value 10 (digits.take (kept digits)) * 10 ^ (6 - kept digits) = f := by
        rw [← value]
        conv => rhs; rw [whole]
        rw [Radix.value_append, value_replicate, List.length_replicate, six, Nat.add_zero]
      have some_digit : 0 < kept digits := by
        by_contra none
        rw [Nat.eq_zero_of_not_pos none, List.take_zero, Radix.value_nil, Nat.zero_mul] at scaled
        omega
      rw [digits_is, List.cons_append, readFraction]
      simp only [expect_cons]
      rw [digitRun_ascii within stops]
      simp only [size]
      rw [if_pos ⟨some_digit, fewer, last⟩, scaled]
  case isFalse zero =>
      obtain rfl : f = 0 := by omega
      rw [List.nil_append, readFraction, plain]

theorem stops_fractionText {f : Nat} {t : Bytes} (stops : Stops t) :
    Stops (fractionText f ++ t) := by
  rw [fractionText]
  split
  · exact stops_cons _ (by decide)
  · exact stops

theorem time_eq {us : Nat} (small : us < 86400000000) :
    time us = ascii (push2 (us / 3600000000)) ++ 58 :: ascii (push2 (us / 60000000 % 60)) ++
      58 :: ascii (push2 (us / 1000000 % 60)) ++ fractionText (us % 1000000) := by
  have hour : ((us : Int).tdiv 3600000000 % 2 ^ 32).toNat = us / 3600000000 := by
    rw [Int.tdiv_eq_ediv_of_nonneg (by omega)]
    omega
  have minute : (((us : Int).tdiv 60000000).tmod 60 % 2 ^ 32).toNat = us / 60000000 % 60 := by
    rw [Int.tdiv_eq_ediv_of_nonneg (by omega), Int.tmod_eq_emod_of_nonneg (by omega)]
    omega
  have second : (((us : Int).tdiv 1000000).tmod 60 % 2 ^ 32).toNat = us / 1000000 % 60 := by
    rw [Int.tdiv_eq_ediv_of_nonneg (by omega), Int.tmod_eq_emod_of_nonneg (by omega)]
    omega
  have rest : (us : Int).tmod 1000000 = (us % 1000000 : Nat) := by
    rw [Int.tmod_eq_emod_of_nonneg (by omega)]
    omega
  have positive : (0 : Int) < (us % 1000000 : Nat) ↔ 0 < us % 1000000 := by omega
  rw [time, hour, minute, second, rest]
  simp only [Int.toNat_natCast, positive, fractionText, kept, Radix.length_digits]

/-- A printed time is read back as its microsecond. -/
theorem time_reads {us : Nat} {t : Bytes} (small : us < 86400000000) (stops : Stops t)
    (plain : expect 46 t = none) : readClock (time us ++ t) = some (us, t) := by
  rw [time_eq small]
  simp only [List.append_assoc, List.cons_append]
  rw [readClock, readTwo_push2 (by omega) (stops_cons _ (by decide)), Option.bind_some]
  simp only [expect_cons, Option.bind_some]
  rw [readTwo_push2 (by omega) (stops_cons _ (by decide)), Option.bind_some]
  simp only [expect_cons, Option.bind_some]
  rw [readTwo_push2 (by omega) (stops_fractionText stops), Option.bind_some]
  simp only
  rw [readFraction_text (by omega) stops plain, Option.bind_some]
  simp only
  rw [if_pos (by omega)]
  congr 2
  omega

/-! ## Timestamps -/

/-- What stands after the time of a day. -/
def zoneText (tz : Bool) : Bytes := if tz then [43, 48, 48] else []

theorem readZone_text (tz : Bool) (t : Bytes) : readZone tz (zoneText tz ++ t) = some t := by
  cases tz with
  | true => rfl
  | false => rfl

theorem stops_zone (tz : Bool) (d : Date) :
    Stops (zoneText tz ++ eraText d) ∧ expect 46 (zoneText tz ++ eraText d) = none := by
  cases tz with
  | true => exact ⟨stops_cons _ (by decide), rfl⟩
  | false =>
      refine ⟨stops_eraText d, ?_⟩
      show expect 46 (eraText d) = none
      rw [eraText]
      split
      · rfl
      · rfl

/-- A printed timestamp is read back as its instant. -/
theorem timestamp_parses {t : Int} (tz : Bool) (low : -2 ^ 63 < t) (high : t < 2 ^ 63 - 1) :
    ∃ text, timestamp t tz = some text ∧ parseTimestamp tz text = some (t + 946684800000000) := by
  obtain ⟨us, clock⟩ : ∃ us : Nat, t % 86400000000 = us :=
    ⟨_, (Int.toNat_of_nonneg (by omega)).symm⟩
  obtain ⟨text, pushed, back⟩ :=
    pushDate_reads (t / 86400000000) (by omega) (by omega)
  obtain ⟨valid, number⟩ := civil_spec (t / 86400000000 + 10957)
  obtain ⟨stops, plain⟩ := stops_zone tz (civil (t / 86400000000 + 10957))
  refine ⟨text ++ 32 :: (time us ++ (zoneText tz ++ eraText (civil (t / 86400000000 + 10957)))),
    ?_, ?_⟩
  · rw [timestamp, if_neg (by omega), if_neg (by omega)]
    simp only [usecsPerDay, pushed, clock, Option.map_some, decide_eq_true_eq, eraText, zoneText,
      List.append_assoc, List.cons_append]
  · rw [parseTimestamp, back _ (stops_cons _ (by decide)), Option.bind_some]
    simp only [expect_cons, Option.bind_some]
    rw [time_reads (by omega) stops plain, Option.bind_some]
    simp only
    rw [readZone_text, Option.bind_some, readEra_shown valid, Option.map_some, number, usecsPerDay]
    congr 1
    omega

end Apitap.BinDec
