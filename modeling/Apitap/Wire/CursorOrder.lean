import Apitap.Foundation.TextOrder
import Apitap.Plan.WatermarkValue
import Apitap.Wire.CursorText
import Mathlib.Data.Nat.Digits.Lemmas

/-!
# The order of cursor texts

A number shown in digits, with a lower symbol behind it, comes before another as a front of
the longer one does: numbers of different lengths compare by their leading digits. Years show
this beyond four digits, where a sign stands before them, and decimals in their integer part.
-/

namespace Apitap.Parquet

open Foundation
open TextOrder (Below compare_append compare_terminated compare_shorter compare_longer)
open Calendar (Date civil)
open Mysource (Text)
open Plan (natOf digit digits)

/-! ## Numbers in digits -/

/-- How many digits a number is shown in. -/
def width (w n : Nat) : Nat := max w (Decimal.itoa n).length

theorem char_digit {d : Nat} (small : d < 10) :
    (Char.ofNat (48 + d)).isDigit = true ∧ digit (Char.ofNat (48 + d)) = d := by
  interval_cases d <;> decide

theorem digits_digitText {ds : List Nat} (within : ∀ d ∈ ds, d < 10) :
    digits (digitText ds) = true := by
  rw [digits, digitText, List.all_map, List.all_eq_true]
  intro d d_mem
  exact (char_digit (within d d_mem)).1

theorem natOf_digitText {ds : List Nat} (within : ∀ d ∈ ds, d < 10) :
    natOf (digitText ds) = Radix.value 10 ds := by
  induction ds with
  | nil => rfl
  | cons d ds ih =>
      have rest := ih fun e e_mem => within e (List.mem_cons_of_mem _ e_mem)
      have first := (char_digit (within d List.mem_cons_self)).2
      rw [Radix.value_cons, ← rest]
      show natOf (Char.ofNat (48 + d) :: digitText ds) = _
      rw [Plan.natOf_cons, first, digitText, List.length_map]

theorem padded_within (w n : Nat) :
    ∀ d ∈ List.replicate (w - (Decimal.itoa n).length) 0 ++ Decimal.itoa n, d < 10 := by
  intro d d_mem
  rcases List.mem_append.mp d_mem with zero | shown
  · rw [List.eq_of_mem_replicate zero]
    decide
  · exact Decimal.itoa_lt n d shown

theorem digits_padded (w n : Nat) : digits (padded w n) = true :=
  digits_digitText (padded_within w n)

theorem length_padded (w n : Nat) : (padded w n).length = width w n := by
  rw [padded, digitText, List.length_map, List.length_append, List.length_replicate, width]
  omega

theorem natOf_padded (w n : Nat) : natOf (padded w n) = n := by
  rw [padded, natOf_digitText (padded_within w n), Decimal.value_zeros_append, Decimal.value_itoa]

theorem digits_append {u v : Text} (all : digits (u ++ v) = true) :
    digits u = true ∧ digits v = true := by
  rwa [digits, List.all_append, Bool.and_eq_true] at all

theorem natOf_append (u v : Text) : natOf (u ++ v) = natOf u * 10 ^ v.length + natOf v := by
  rw [natOf, List.foldl_append, Plan.foldl_digits]
  rfl

/-- Leading digits. -/
theorem natOf_front {u v : Text} (all : digits (u ++ v) = true) :
    natOf u = natOf (u ++ v) / 10 ^ v.length := by
  rw [natOf_append, Nat.add_comm, Nat.add_mul_div_right _ _ (by positivity),
    Nat.div_eq_of_lt (Plan.natOf_lt (digits_append all).2), Nat.zero_add]

theorem below_digits {c : Char} {t : Text} (low : c < '0') (all : digits t = true) :
    Below c t := by
  intro x x_mem
  have bounds := (Plan.isDigit_iff x).mp (List.all_eq_true.mp all x x_mem)
  have less : c < x := by
    have small : c.toNat < 48 := low
    show c.toNat < x.toNat
    omega
  exact ⟨compare_lt_iff_lt.mpr less, compare_gt_iff_gt.mpr less⟩

/-- The order of two numbers in digits with a lower symbol behind them. -/
def numeralOrder (w a b : Nat) : Ordering :=
  if width w a = width w b then compare a b
  else if width w a < width w b then
    (compare a (b / 10 ^ (width w b - width w a))).then .lt
  else (compare (a / 10 ^ (width w a - width w b)) b).then .gt

theorem exists_front {t : Text} {n : Nat} (less : n < t.length) :
    ∃ u v, t = u ++ v ∧ u.length = n ∧ v ≠ [] ∧ v.length = t.length - n := by
  refine ⟨t.take n, t.drop n, (List.take_append_drop n t).symm, ?_, ?_, List.length_drop⟩
  · rw [List.length_take]
    omega
  · intro none
    have length := congrArg List.length none
    rw [List.length_drop, List.length_nil] at length
    omega

theorem compare_padded {c : Char} (low : c < '0') (w a b : Nat) (r s : Text) :
    compare (padded w a ++ c :: r) (padded w b ++ c :: s) =
      (numeralOrder w a b).then (compare r s) := by
  have self : compare c c = .eq := compare_eq_iff_eq.mpr rfl
  rw [numeralOrder, ← length_padded, ← length_padded]
  split
  case isTrue same =>
      rw [compare_append same, List.compare_cons_cons, self, Ordering.eq_then,
        Plan.compare_natOf (digits_padded w a) (digits_padded w b) same, natOf_padded,
        natOf_padded]
  case isFalse differ =>
      split
      case isTrue less =>
          obtain ⟨u, v, split, length, nonempty, rest⟩ := exists_front less
          have all := digits_padded w b
          rw [split] at all
          have front := natOf_front all
          rw [← split, natOf_padded, rest] at front
          rw [split, compare_shorter length.symm nonempty (below_digits low (digits_append all).2),
            Plan.compare_natOf (digits_padded w a) (digits_append all).1 length.symm,
            natOf_padded, front, ← split, Ordering.then_assoc]
          rfl
      case isFalse =>
          have more : (padded w b).length < (padded w a).length := by omega
          obtain ⟨u, v, split, length, nonempty, rest⟩ := exists_front more
          have all := digits_padded w a
          rw [split] at all
          have front := natOf_front all
          rw [← split, natOf_padded, rest] at front
          rw [split, compare_longer length nonempty (below_digits low (digits_append all).2),
            Plan.compare_natOf (digits_append all).1 (digits_padded w b) length,
            natOf_padded, front, ← split, Ordering.then_assoc]
          rfl

/-! ## Years -/

/-- What a year starts with: a plus beyond four digits, a minus, a digit. -/
def yearClass (y : Int) : Nat := if 9999 < y then 0 else if y < 0 then 1 else 2

def yearOrder (y z : Int) : Ordering :=
  (compare (yearClass y) (yearClass z)).then (numeralOrder 4 y.natAbs z.natAbs)

theorem yearText_late {y : Int} (late : 9999 < y) : yearText y = '+' :: padded 4 y.natAbs := by
  rw [yearText, if_neg (by omega), if_neg (by omega)]

theorem yearText_negative {y : Int} (negative : y < 0) :
    yearText y = '-' :: padded 4 y.natAbs := by
  rw [yearText, if_neg (by omega), if_pos negative]

theorem yearText_plain {y : Int} (low : 0 ≤ y) (high : y ≤ 9999) :
    yearText y = padded 4 y.natAbs := by
  have same : y.toNat = y.natAbs := by omega
  rw [yearText, if_pos ⟨low, high⟩, same]

theorem padded_cons (w n : Nat) (positive : 0 < w) :
    ∃ d t, padded w n = d :: t ∧ d.isDigit = true := by
  have all := digits_padded w n
  have length := length_padded w n
  cases shown : padded w n with
  | nil =>
      rw [shown, List.length_nil, width] at length
      omega
  | cons d t =>
      rw [shown] at all
      exact ⟨d, t, rfl, (Plan.digits_cons all).1⟩

/-- A lower symbol comes before a number. -/
theorem compare_sign {c : Char} (low : c < '0') (w n : Nat) (positive : 0 < w) (r s : Text) :
    compare (c :: r) (padded w n ++ s) = .lt ∧ compare (padded w n ++ s) (c :: r) = .gt := by
  obtain ⟨d, t, shown, isDigit⟩ := padded_cons w n positive
  have all : digits [d] = true := by simp [digits, isDigit]
  obtain ⟨before, behind⟩ := below_digits low all d List.mem_cons_self
  rw [shown, List.cons_append, List.compare_cons_cons, List.compare_cons_cons, before, behind]
  exact ⟨rfl, rfl⟩

theorem compare_years (y z : Int) (r s : Text) :
    compare (yearText y ++ '-' :: r) (yearText z ++ '-' :: s) =
      (yearOrder y z).then (compare r s) := by
  have minus : compare '-' '-' = Ordering.eq := by decide
  have plus : compare '+' '+' = Ordering.eq := by decide
  have numbers := compare_padded (c := '-') (by decide) 4 y.natAbs z.natAbs r s
  rw [yearOrder, yearClass, yearClass]
  rcases lt_or_ge 9999 y with late | notLate
  · rw [if_pos late, yearText_late late]
    rcases lt_or_ge 9999 z with late' | notLate'
    · rw [if_pos late', yearText_late late', List.cons_append, List.cons_append,
        List.compare_cons_cons, plus, Ordering.eq_then, numbers]
      rfl
    · rw [if_neg (by omega)]
      rcases lt_or_ge z 0 with negative | nonneg
      · rw [if_pos negative, yearText_negative negative]
        rfl
      · rw [if_neg (by omega), yearText_plain nonneg notLate']
        exact (compare_sign (by decide) 4 _ (by decide) _ _).1
  · rw [if_neg (by omega)]
    rcases lt_or_ge y 0 with negative | nonneg
    · rw [if_pos negative, yearText_negative negative]
      rcases lt_or_ge 9999 z with late' | notLate'
      · rw [if_pos late', yearText_late late']
        rfl
      · rw [if_neg (by omega)]
        rcases lt_or_ge z 0 with negative' | nonneg'
        · rw [if_pos negative', yearText_negative negative', List.cons_append, List.cons_append,
            List.compare_cons_cons, minus, Ordering.eq_then, numbers]
          rfl
        · rw [if_neg (by omega), yearText_plain nonneg' notLate']
          exact (compare_sign (by decide) 4 _ (by decide) _ _).1
    · rw [if_neg (by omega), yearText_plain nonneg notLate]
      rcases lt_or_ge 9999 z with late' | notLate'
      · rw [if_pos late', yearText_late late']
        exact (compare_sign (by decide) 4 _ (by decide) _ _).2
      · rw [if_neg (by omega)]
        rcases lt_or_ge z 0 with negative' | nonneg'
        · rw [if_pos negative', yearText_negative negative']
          exact (compare_sign (by decide) 4 _ (by decide) _ _).2
        · rw [if_neg (by omega), yearText_plain nonneg' notLate', numbers]
          rfl

/-! ## Dates -/

theorem daysBefore_add {y : Int} {m n : Nat} (m_pos : 1 ≤ m) (less : m < n) (le : n ≤ 12) :
    Calendar.daysBefore m + (if 2 < m ∧ Calendar.Leap y then 1 else 0) + Calendar.daysIn y m ≤
      Calendar.daysBefore n + (if 2 < n ∧ Calendar.Leap y then 1 else 0) := by
  by_cases leap : Calendar.Leap y
  · simp only [leap, and_true, Calendar.daysIn, if_true]
    interval_cases n <;> interval_cases m <;> decide
  · simp only [leap, and_false, if_false, Calendar.daysIn, Nat.add_zero]
    interval_cases n <;> interval_cases m <;> decide

/-- The day of the year. -/
def dayOfYear (d : Date) : Nat :=
  Calendar.daysBefore d.month + (if 2 < d.month ∧ Calendar.Leap d.year then 1 else 0) + d.day

theorem number_eq (d : Date) :
    d.number = 365 * (d.year - 1) + (d.year - 1) / 4 - (d.year - 1) / 100 + (d.year - 1) / 400 -
      719163 + dayOfYear d := by
  rw [Date.number, dayOfYear]
  split
  · push_cast
    ring
  · push_cast
    ring

theorem dayOfYear_lt {y : Int} {m n a b : Nat} (valid : (⟨y, m, a⟩ : Date).Valid)
    (valid' : (⟨y, n, b⟩ : Date).Valid) (less : m < n) :
    dayOfYear ⟨y, m, a⟩ < dayOfYear ⟨y, n, b⟩ := by
  have step := daysBefore_add (y := y) valid.1.1 less valid'.1.2
  have last : a ≤ Calendar.daysIn y m := valid.2.2
  have first : 1 ≤ b := valid'.2.1
  rw [dayOfYear, dayOfYear]
  dsimp only at step ⊢
  omega

/-- Within a year days go by month and day. -/
theorem compare_sameYear {d e : Date} (valid : d.Valid) (valid' : e.Valid)
    (same : d.year = e.year) :
    compare d.number e.number = (compare d.month e.month).then (compare d.day e.day) := by
  have days : compare d.number e.number = compare (dayOfYear d) (dayOfYear e) := by
    rw [number_eq, number_eq, same]
    rcases lt_trichotomy (dayOfYear d) (dayOfYear e) with less | equal | more
    · rw [compare_lt_iff_lt.mpr less, compare_lt_iff_lt]
      omega
    · rw [compare_eq_iff_eq.mpr equal, compare_eq_iff_eq]
      omega
    · rw [compare_gt_iff_gt.mpr more, compare_gt_iff_gt]
      omega
  rw [days]
  obtain ⟨y, m, a⟩ := d
  obtain ⟨z, n, b⟩ := e
  obtain rfl : y = z := same
  dsimp only
  rcases lt_trichotomy m n with less | rfl | more
  · rw [compare_lt_iff_lt.mpr less, compare_lt_iff_lt.mpr (dayOfYear_lt valid valid' less)]
    rfl
  · rw [compare_eq_iff_eq.mpr rfl, Ordering.eq_then, dayOfYear, dayOfYear]
    dsimp only
    rcases lt_trichotomy a b with less | rfl | more
    · rw [compare_lt_iff_lt.mpr less, compare_lt_iff_lt]
      omega
    · rw [compare_eq_iff_eq.mpr rfl, compare_eq_iff_eq.mpr rfl]
    · rw [compare_gt_iff_gt.mpr more, compare_gt_iff_gt]
      omega
  · rw [compare_gt_iff_gt.mpr more, compare_gt_iff_gt.mpr (dayOfYear_lt valid' valid more)]
    rfl

/-- A later year is of later days. -/
theorem number_lt_of_year {d e : Date} (valid : d.Valid) (valid' : e.Valid)
    (less : d.year < e.year) : d.number < e.number := by
  have upper := valid.number_bounds.2
  have lower := valid'.number_bounds.1
  have le : d.number ≤ e.number := by omega
  apply lt_of_le_of_ne le
  intro same
  have dates := valid.civil_number
  rw [same, valid'.civil_number] at dates
  rw [dates] at less
  exact absurd less (lt_irrefl _)

theorem width_two {n : Nat} (small : n < 100) : width 2 n = 2 := by
  have short : (Decimal.itoa n).length ≤ 2 := by
    by_cases one : n < 10
    · rw [Decimal.itoa_of_lt one]
      exact Nat.le_succ 1
    · rw [Decimal.itoa_step (by omega), Decimal.itoa_of_lt (by omega)]
      rfl
  rw [width]
  omega

/-- Two digits. -/
theorem compare_two {a b : Nat} (small : a < 100) (small' : b < 100) (r s : Text) :
    compare (padded 2 a ++ r) (padded 2 b ++ s) = (compare a b).then (compare r s) := by
  have same : (padded 2 a).length = (padded 2 b).length := by
    rw [length_padded, length_padded, width_two small, width_two small']
  rw [compare_append same, Plan.compare_natOf (digits_padded 2 a) (digits_padded 2 b) same,
    natOf_padded, natOf_padded]

theorem compare_cons_self (c : Char) (r s : Text) : compare (c :: r) (c :: s) = compare r s := by
  rw [List.compare_cons_cons, compare_eq_iff_eq.mpr rfl, Ordering.eq_then]

theorem valid_two {d : Date} (valid : d.Valid) : d.month < 100 ∧ d.day < 100 := by
  have month := valid.1.2
  have day := valid.2.2
  have short : Calendar.daysIn d.year d.month ≤ 31 := by
    rw [Calendar.daysIn]
    split
    · split
      · decide
      · decide
    · split
      · decide
      · decide
  omega

/-- Dates with texts behind them. -/
theorem compare_dateText (d e : Date) (valid : d.Valid) (valid' : e.Valid) (r s : Text) :
    compare (dateText d ++ r) (dateText e ++ s) =
      (yearOrder d.year e.year).then
        ((compare d.month e.month).then ((compare d.day e.day).then (compare r s))) := by
  obtain ⟨month, day⟩ := valid_two valid
  obtain ⟨month', day'⟩ := valid_two valid'
  rw [dateText, dateText, List.append_assoc, List.append_assoc, List.cons_append,
    List.cons_append, compare_years, List.append_assoc, List.append_assoc,
    compare_two month month', List.cons_append, List.cons_append, compare_cons_self,
    compare_two day day']

theorem numeralOrder_eq {w a b : Nat} : numeralOrder w a b = .eq ↔ a = b := by
  rw [numeralOrder]
  constructor
  · intro same
    split at same
    · exact compare_eq_iff_eq.mp same
    · split at same
      · rw [Ordering.then_eq_eq] at same
        cases same.2
      · rw [Ordering.then_eq_eq] at same
        cases same.2
  · intro same
    rw [same, if_pos rfl, compare_eq_iff_eq]

theorem yearOrder_eq {y z : Int} : yearOrder y z = .eq ↔ y = z := by
  constructor
  · intro same
    rw [yearOrder, Ordering.then_eq_eq, compare_eq_iff_eq, numeralOrder_eq, yearClass,
      yearClass] at same
    obtain ⟨kind, size⟩ := same
    split at kind
    · split at kind
      · omega
      · split at kind <;> omega
    · split at kind
      · split at kind
        · omega
        · split at kind <;> omega
      · split at kind
        · omega
        · split at kind <;> omega
  · intro same
    rw [same, yearOrder, numeralOrder_eq.mpr rfl, compare_eq_iff_eq.mpr rfl]
    rfl

/-- Days as dates, with what is shown behind them. -/
theorem compare_days (a b : Int) (r s : Text) :
    compare (dateText (civil a) ++ r) (dateText (civil b) ++ s) =
      (yearOrder (civil a).year (civil b).year).then ((compare a b).then (compare r s)) := by
  obtain ⟨valid, number⟩ := Calendar.civil_spec a
  obtain ⟨valid', number'⟩ := Calendar.civil_spec b
  rw [compare_dateText _ _ valid valid']
  by_cases same : (civil a).year = (civil b).year
  · have within := compare_sameYear valid valid' same
    rw [number, number'] at within
    rw [within, Ordering.then_assoc]
  · cases order : yearOrder (civil a).year (civil b).year with
    | lt => rfl
    | gt => rfl
    | eq => exact absurd (yearOrder_eq.mp order) same

/-! ## Times -/

theorem compare_divMod {k : Nat} (positive : 0 < k) (s t : Nat) :
    compare s t = (compare (s / k) (t / k)).then (compare (s % k) (t % k)) := by
  have split := Nat.div_add_mod s k
  have split' := Nat.div_add_mod t k
  have below := Nat.mod_lt s positive
  have below' := Nat.mod_lt t positive
  rcases lt_trichotomy (s / k) (t / k) with less | same | more
  · have step := Nat.mul_le_mul_left k less
    rw [Nat.mul_succ] at step
    rw [compare_lt_iff_lt.mpr less, Ordering.lt_then, compare_lt_iff_lt]
    omega
  · rw [compare_eq_iff_eq.mpr same, Ordering.eq_then]
    rw [same] at split
    rcases lt_trichotomy (s % k) (t % k) with less | same' | more
    · rw [compare_lt_iff_lt.mpr less, compare_lt_iff_lt]
      omega
    · rw [compare_eq_iff_eq.mpr same', compare_eq_iff_eq]
      omega
    · rw [compare_gt_iff_gt.mpr more, compare_gt_iff_gt]
      omega
  · have step := Nat.mul_le_mul_left k more
    rw [Nat.mul_succ] at step
    rw [compare_gt_iff_gt.mpr more, Ordering.gt_then, compare_gt_iff_gt]
    omega

theorem compare_emod {k : Int} (positive : 0 < k) (s t : Int) :
    compare s t = (compare (s / k) (t / k)).then (compare (s % k).toNat (t % k).toNat) := by
  have split := Int.mul_ediv_add_emod s k
  have split' := Int.mul_ediv_add_emod t k
  have below := Int.emod_lt_of_pos s positive
  have below' := Int.emod_lt_of_pos t positive
  have nonneg := Int.emod_nonneg s positive.ne'
  have nonneg' := Int.emod_nonneg t positive.ne'
  rcases lt_trichotomy (s / k) (t / k) with less | same | more
  · have step := Int.mul_le_mul_of_nonneg_left (Int.add_one_le_of_lt less) positive.le
    rw [Int.mul_add, Int.mul_one] at step
    rw [compare_lt_iff_lt.mpr less, Ordering.lt_then, compare_lt_iff_lt]
    omega
  · rw [compare_eq_iff_eq.mpr same, Ordering.eq_then]
    rw [same] at split
    rcases lt_trichotomy (s % k) (t % k) with less | same' | more
    · rw [compare_lt_iff_lt.mpr (by omega : s < t), eq_comm, compare_lt_iff_lt]
      omega
    · rw [compare_eq_iff_eq.mpr (by omega : s = t), eq_comm, compare_eq_iff_eq, same']
    · rw [compare_gt_iff_gt.mpr (by omega : t < s), eq_comm, compare_gt_iff_gt]
      omega
  · have step := Int.mul_le_mul_of_nonneg_left (Int.add_one_le_of_lt more) positive.le
    rw [Int.mul_add, Int.mul_one] at step
    rw [compare_gt_iff_gt.mpr more, Ordering.gt_then, compare_gt_iff_gt]
    omega

theorem compare_clock {s t : Nat} (within : s < 86400) (within' : t < 86400) (r r' : Text) :
    compare (clockText s ++ r) (clockText t ++ r') = (compare s t).then (compare r r') := by
  have minutes : compare s t = (compare (s / 3600) (t / 3600)).then
      ((compare (s / 60 % 60) (t / 60 % 60)).then (compare (s % 60) (t % 60))) := by
    have hours : s / 60 / 60 = s / 3600 := Nat.div_div_eq_div_mul s 60 60
    have hours' : t / 60 / 60 = t / 3600 := Nat.div_div_eq_div_mul t 60 60
    rw [compare_divMod (k := 60) (by decide) s t, compare_divMod (k := 60) (by decide) (s / 60),
      hours, hours', Ordering.then_assoc]
  rw [clockText, clockText, List.append_assoc, List.append_assoc, List.cons_append,
    List.cons_append, compare_two (by omega) (by omega), compare_cons_self, List.append_assoc,
    List.append_assoc, List.cons_append, List.cons_append, compare_two (by omega) (by omega),
    compare_cons_self, compare_two (by omega) (by omega), minutes, Ordering.then_assoc,
    Ordering.then_assoc]

theorem fracOf_eq (t : Text) : Plan.fracOf t = natOf t / 10 ^ t.length := by
  induction t with
  | nil => simp [Plan.fracOf, natOf]
  | cons c t ih =>
      rw [Plan.fracOf_cons, ih, Plan.natOf_cons, List.length_cons, pow_succ]
      push_cast
      field_simp

theorem digits_rdropWhile {p : Char → Bool} {t : Text} (all : digits t = true) :
    digits (t.rdropWhile p) = true :=
  Plan.digits_of_sublist (List.rdropWhile_prefix p t).sublist all

theorem width_six {n : Nat} (small : n < 10 ^ 6) : width 6 n = 6 := by
  have short : (Decimal.itoa n).length ≤ 6 := by
    rw [Decimal.itoa]
    split
    · decide
    · rw [List.length_reverse]
      exact (Nat.digits_length_le_iff (by decide) n).mpr small
  rw [width]
  omega

/-- Fractions without their last zeros. -/
theorem compare_fraction {m n : Nat} (small : m < 10 ^ 6) (small' : n < 10 ^ 6) :
    compare (fraction m) (fraction n) = compare m n := by
  rw [fraction, fraction]
  by_cases zero : m = 0
  · subst zero
    rw [if_pos rfl]
    by_cases zero' : n = 0
    · subst zero'
      rw [if_pos rfl, compare_eq_iff_eq.mpr rfl]
      rfl
    · rw [if_neg zero', List.compare_nil_cons, eq_comm, compare_lt_iff_lt]
      omega
  · rw [if_neg zero]
    by_cases zero' : n = 0
    · subst zero'
      rw [if_pos rfl, List.compare_cons_nil, eq_comm, compare_gt_iff_gt]
      omega
    · have value (k : Nat) (k_lt : k < 10 ^ 6) :
          Plan.fracOf ((padded 6 k).rdropWhile (· = '0')) = k / 10 ^ 6 := by
        rw [Plan.fracOf_dropZeros, fracOf_eq, natOf_padded, length_padded, width_six k_lt]
      rw [if_neg zero', compare_cons_self,
        Plan.compare_frac (digits_rdropWhile (digits_padded 6 m))
          (digits_rdropWhile (digits_padded 6 n)) (Plan.getLast?_dropZeros _)
          (Plan.getLast?_dropZeros _), value m small, value n small']
      rcases lt_trichotomy m n with less | same | more
      · rw [compare_lt_iff_lt.mpr less, compare_lt_iff_lt]
        have cast : (m : ℚ) < n := by exact_mod_cast less
        linarith
      · rw [same, compare_eq_iff_eq.mpr rfl, compare_eq_iff_eq.mpr rfl]
      · rw [compare_gt_iff_gt.mpr more, compare_gt_iff_gt]
        have cast : (n : ℚ) < m := by exact_mod_cast more
        linarith

/-- What stands behind a timestamp. -/
def zone (utc : Bool) : Text := if utc then ['+', '0', '0'] else []

theorem below_fraction (m : Nat) : Below '+' (fraction m) := by
  rw [fraction]
  split
  · intro x x_mem
    cases x_mem
  · intro x x_mem
    rcases List.mem_cons.mp x_mem with rfl | shown
    · decide
    · exact below_digits (by decide) (digits_rdropWhile (digits_padded 6 m)) x shown

theorem compare_zone {m n : Nat} (small : m < 10 ^ 6) (small' : n < 10 ^ 6) (utc : Bool) :
    compare (fraction m ++ zone utc) (fraction n ++ zone utc) = compare m n := by
  cases utc with
  | false =>
      rw [zone, if_neg (by decide), List.append_nil, List.append_nil,
        compare_fraction small small']
  | true =>
      rw [zone, if_pos rfl, compare_terminated (below_fraction m) (below_fraction n) (by decide),
        compare_fraction small small']
      exact Ordering.then_eq

/-- The text of a timestamp. -/
def tsText (us : Int) (utc : Bool) : Text :=
  dateText (civil (us / 1000000 / 86400)) ++
    ' ' :: (clockText (us / 1000000 % 86400).toNat ++ (fraction (us % 1000000).toNat ++ zone utc))

/-- The year of a timestamp. -/
def yearAt (us : Int) : Int := (civil (us / 1000000 / 86400)).year

/-- Timestamps as texts go by their years as texts, and within a year by time. -/
theorem compare_tsText (a b : Int) (utc : Bool) :
    compare (tsText a utc) (tsText b utc) =
      (yearOrder (yearAt a) (yearAt b)).then (compare a b) := by
  have clock := compare_clock (s := (a / 1000000 % 86400).toNat)
    (t := (b / 1000000 % 86400).toNat) (by omega) (by omega)
  have micros (z : Int) : (z % 1000000).toNat < 10 ^ 6 := by omega
  rw [tsText, tsText, compare_days, compare_cons_self, clock, compare_zone (micros a) (micros b),
    compare_emod (k := 1000000) (by decide) a b,
    compare_emod (k := 86400) (by decide) (a / 1000000), Ordering.then_assoc, yearAt, yearAt]

end Apitap.Parquet
