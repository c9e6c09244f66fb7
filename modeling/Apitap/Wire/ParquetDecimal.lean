import Apitap.Wire.DecimalExact
import Apitap.Wire.ParquetColumn

/-!
# A NUMERIC column on the Parquet lane

The gate looks at the declared precision, the delivered shape at precision and scale, and the
builder and the schema clamp both at 38 digits. A value is kept where the clamped decimal can
hold it: a column scaled past 38 places drops the digits behind them, one with a negative
scale may pass 38 digits, and one wider than 76 digits is delivered as a float.
-/

namespace Apitap.Parquet

open Foundation
open Copy (Numeric InShape decimalShape fromBeInt numericToScaledI128 checkedPow)

/-! ## What the decoder gives -/

/-- The digits of a value, alone or at its display scale, do not fit in 128 bits. -/
def TooLong (x : Numeric) : Prop :=
  ¬ (x.number < 2 ^ 127 ∧ x.number * 10 ^ x.shift.toNat < 2 ^ 127)

/-- The value at its display scale. -/
def atDscale (x : Numeric) : Int := if x.neg then -(x.scaled : Int) else x.scaled

theorem cast_atDscale (x : Numeric) : (atDscale x : ℚ) = x.value * 10 ^ x.dscale := by
  rw [x.value_scaled, atDscale]
  cases x.neg with
  | false => simp
  | true => simp

theorem raw_cases (x : Numeric) :
    (TooLong x ∧ Copy.numericToScaledI128Raw x.bytes = .error (.err (Copy.bad "numeric overflow")))
    ∨
    (¬ TooLong x ∧ |atDscale x| < 2 ^ 127 ∧
      Copy.numericToScaledI128Raw x.bytes = .ok (atDscale x, x.dscale)) := by
  rw [x.raw_bytes, x.shifted_number]
  by_cases short : x.number < 2 ^ 127 ∧ x.number * 10 ^ x.shift.toNat < 2 ^ 127
  · refine .inr ⟨not_not.mpr short, ?_, ?_⟩
    · have below : x.scaled < 2 ^ 127 := (Nat.div_le_self _ _).trans_lt short.2
      have size : |atDscale x| = x.scaled := by
        rw [atDscale]
        cases x.neg with
        | false => simp
        | true => simp
      rw [size]
      exact_mod_cast below
    · rw [if_pos short]
      rfl
  · refine .inl ⟨short, ?_⟩
    rw [if_neg short]
    rfl

theorem fits_of_abs {z : Int} (bound : |z| < 2 ^ 127) : Fits 128 z := by
  obtain ⟨low, high⟩ := abs_lt.mp bound
  exact ⟨low.le, high⟩

/-- A value of the scale is read as its scaled integer, or refused. -/
theorem scaled_exact {x : Numeric} {scale : Nat} {m n : Int}
    (read : numericToScaledI128 x.bytes scale = .ok m) (exact : (n : ℚ) = x.value * 10 ^ scale) :
    m = n := by
  rcases raw_cases x with ⟨-, failed⟩ | ⟨-, bound, raw⟩
  · rw [numericToScaledI128, failed] at read
    cases read
  · have value := cast_atDscale x
    rw [numericToScaledI128, raw, Stop.ok_bind] at read
    dsimp only at read
    rcases Nat.lt_trichotomy x.dscale scale with up | rfl | down
    · have ne : ¬ (scale : Int) - x.dscale = 0 := by omega
      have pos : 0 < (scale : Int) - x.dscale := by omega
      have diff : ((scale : Int) - x.dscale).toNat = scale - x.dscale := by omega
      rw [if_neg ne, if_pos pos, diff] at read
      by_cases power : Fits 128 ((10 : Int) ^ (scale - x.dscale))
      · rw [show checkedPow (scale - x.dscale) = some _ from checked_of_fits power,
          Stop.orErr_some, Stop.ok_bind] at read
        by_cases room : Fits 128 (atDscale x * 10 ^ (scale - x.dscale))
        · rw [checked_of_fits room, Stop.orErr_some] at read
          obtain rfl := Except.ok.inj read
          have split : (10 : ℚ) ^ scale = 10 ^ x.dscale * 10 ^ (scale - x.dscale) := by
            rw [← pow_add, Nat.add_sub_cancel' up.le]
          rw [split, ← mul_assoc, ← value] at exact
          exact_mod_cast exact.symm
        · rw [checked_eq_none room] at read
          cases read
      · rw [show checkedPow (scale - x.dscale) = none from checked_eq_none power] at read
        cases read
    · have same : (x.dscale : Int) - x.dscale = 0 := by omega
      rw [if_pos same] at read
      obtain rfl := Except.ok.inj read
      rw [← value] at exact
      exact_mod_cast exact.symm
    · have ne : ¬ (scale : Int) - x.dscale = 0 := by omega
      have neg : ¬ 0 < (scale : Int) - x.dscale := by omega
      have diff : (-((scale : Int) - x.dscale)).toNat = x.dscale - scale := by omega
      have whole : atDscale x = n * 10 ^ (x.dscale - scale) := by
        have split : (10 : ℚ) ^ x.dscale = 10 ^ scale * 10 ^ (x.dscale - scale) := by
          rw [← pow_add, Nat.add_sub_cancel' down.le]
        rw [split, ← mul_assoc, ← exact] at value
        exact_mod_cast value
      rw [if_neg ne, if_neg neg, diff] at read
      by_cases small : Fits 128 ((10 : Int) ^ (x.dscale - scale))
      · rw [show checkedPow (x.dscale - scale) = some _ from checked_of_fits small] at read
        obtain rfl := Except.ok.inj read
        rw [whole, Int.mul_tdiv_cancel _ (by positivity)]
      · rw [show checkedPow (x.dscale - scale) = none from checked_eq_none small] at read
        obtain rfl := Except.ok.inj read
        have large : (2 : Int) ^ 127 ≤ 10 ^ (x.dscale - scale) := by
          by_contra low
          exact small (fits_of_nonneg (by positivity) (not_le.mp low))
        by_contra nonzero
        have one : 1 ≤ |n| := Int.one_le_abs fun zero => nonzero zero.symm
        rw [whole, abs_mul, abs_of_pos (by positivity : (0 : Int) < 10 ^ (x.dscale - scale))]
          at bound
        nlinarith

/-- Everything the decoder can do with a value at a scale of at most 38. -/
theorem scaled_cases (x : Numeric) {scale : Nat} (le : scale ≤ 38) :
    ((TooLong x ∨ x.dscale < scale) ∧
      numericToScaledI128 x.bytes scale = .error (.err (Copy.bad "numeric overflow"))) ∨
    (¬ TooLong x ∧ ∃ n, numericToScaledI128 x.bytes scale = .ok n ∧ Fits 128 n ∧
      ∀ z : Int, (z : ℚ) = x.value * 10 ^ scale → n = z) := by
  rcases raw_cases x with ⟨long, failed⟩ | ⟨short, bound, raw⟩
  · refine .inl ⟨.inl long, ?_⟩
    rw [numericToScaledI128, failed]
    rfl
  · have gives {n : Int} (read : numericToScaledI128 x.bytes scale = .ok n) (room : Fits 128 n) :
        ¬ TooLong x ∧ ∃ n, numericToScaledI128 x.bytes scale = .ok n ∧ Fits 128 n ∧
          ∀ z : Int, (z : ℚ) = x.value * 10 ^ scale → n = z :=
      ⟨short, n, read, room, fun _ exact => scaled_exact read exact⟩
    obtain ⟨result, read⟩ : ∃ r, numericToScaledI128 x.bytes scale = r := ⟨_, rfl⟩
    have is := read
    rw [numericToScaledI128, raw, Stop.ok_bind] at is
    dsimp only at is
    rcases Nat.lt_trichotomy x.dscale scale with up | rfl | down
    · have ne : ¬ (scale : Int) - x.dscale = 0 := by omega
      have pos : 0 < (scale : Int) - x.dscale := by omega
      have diff : ((scale : Int) - x.dscale).toNat = scale - x.dscale := by omega
      have power : checkedPow (scale - x.dscale) = some (10 ^ (scale - x.dscale)) := by
        have le : (10 : Int) ^ (scale - x.dscale) ≤ 10 ^ 38 :=
          pow_le_pow_right₀ (by norm_num) (by omega)
        exact checked_of_fits (fits_of_nonneg (by positivity) (le.trans_lt (by norm_num)))
      rw [if_neg ne, if_pos pos, diff, power, Stop.orErr_some, Stop.ok_bind] at is
      by_cases room : Fits 128 (atDscale x * 10 ^ (scale - x.dscale))
      · rw [checked_of_fits room, Stop.orErr_some] at is
        subst is
        exact .inr (gives read room)
      · rw [checked_eq_none room, Stop.orErr_none] at is
        subst is
        exact .inl ⟨.inr up, read⟩
    · have same : (x.dscale : Int) - x.dscale = 0 := by omega
      rw [if_pos same] at is
      subst is
      exact .inr (gives read (fits_of_abs bound))
    · have ne : ¬ (scale : Int) - x.dscale = 0 := by omega
      have neg : ¬ 0 < (scale : Int) - x.dscale := by omega
      have diff : (-((scale : Int) - x.dscale)).toNat = x.dscale - scale := by omega
      rw [if_neg ne, if_neg neg, diff] at is
      by_cases small : Fits 128 ((10 : Int) ^ (x.dscale - scale))
      · rw [show checkedPow (x.dscale - scale) = some _ from checked_of_fits small] at is
        subst is
        refine .inr (gives read (fits_of_abs ?_))
        have le_self : |(atDscale x).tdiv (10 ^ (x.dscale - scale))| ≤ |atDscale x| := by
          rw [Int.abs_eq_natAbs, Int.abs_eq_natAbs, Int.natAbs_tdiv]
          exact_mod_cast Nat.div_le_self _ _
        exact le_self.trans_lt bound
      · rw [show checkedPow (x.dscale - scale) = none from checked_eq_none small] at is
        subst is
        exact .inr (gives read (by decide))

/-! ## The column -/

/-- What a load of one value leaves in the column's builder. -/
def written (p s : Int) (x : Numeric) : Except (Stop Error) ColBuf :=
  let d := deliveredOfUdt ⟨"numeric", some p, some s⟩
  ((ColBuf.new d).pushPg x.bytes d).map Prod.fst

/-- The load fails, or the sixteen bytes written, read as the field is declared, are the value
within the declared precision. -/
def Kept (p s : Int) (x : Numeric) : Prop :=
  (∃ e, written p s x = .error (.err e)) ∨
  ∃ v places precision scale, written p s x = .ok (.dec [v] places) ∧ v.length = 16 ∧
    (∀ name id, (parquetField name (deliveredOfUdt ⟨"numeric", some p, some s⟩) id).logical =
      some (.decimal precision scale)) ∧
    (fromBeInt v : ℚ) = x.value * 10 ^ scale ∧ |fromBeInt v| < 10 ^ precision

/-- The values the clamped decimal holds, and those whose load fails. -/
def Exact (p s : Int) (x : Numeric) : Prop :=
  if (decimalShape p s).1 ≤ 76 then
    TooLong x ∨ ((∃ z : Int, (z : ℚ) = x.value * 10 ^ 38) ∧ |x.value| < 10 ^ 38)
  else x.value ≠ 0

theorem fromBeInt_beInt {w : Nat} {z : Int} (positive : 0 < w) (fits : Fits (8 * w) z) :
    fromBeInt (beInt w z) = z := by
  have back := Copy.fromLeInt_leInt positive fits
  rw [Copy.fromLeInt, Copy.leInt, Copy.le, List.reverse_reverse, List.length_reverse] at back
  exact back

theorem number_pos {x : Numeric} (some_group : x.groups ≠ []) : 0 < x.number := by
  have head := x.head_ne
  rw [Numeric.number]
  cases groups : x.groups with
  | nil => exact absurd groups some_group
  | cons d ds =>
      rw [groups, List.head?_cons] at head
      have nonzero : 0 < d := Nat.pos_of_ne_zero fun is => head (congrArg some is)
      rw [Radix.value_cons]
      exact Nat.add_pos_left (Nat.mul_pos nonzero (by positivity)) _

theorem value_eq_zero_iff {x : Numeric} : x.value = 0 ↔ x.groups = [] := by
  constructor
  · intro zero
    by_contra some_group
    have positive : (x.number : ℚ) ≠ 0 := by
      have nat := number_pos some_group
      exact_mod_cast nat.ne'
    have sign : (if x.neg then (-1 : ℚ) else 1) ≠ 0 := by
      cases x.neg with
      | false => norm_num
      | true => norm_num
    rw [Numeric.value] at zero
    exact mul_ne_zero (mul_ne_zero sign positive) (zpow_ne_zero _ (by norm_num)) zero
  · intro none
    have number : x.number = 0 := by
      rw [Numeric.number, none]
      rfl
    rw [Numeric.value, number]
    simp

theorem admitted_precision {p : Int} (admitted : parquetColOk "postgres" "numeric"
    (some p) = true) :
    1 ≤ p ∧ p ≤ 38 := by
  have decodable : parquetDecodable "postgres" "numeric" = true := by decide
  rw [parquetColOk, decodable] at admitted
  simpa using admitted

/-! ## When a value is kept -/

section kept

variable {p s : Int} {x : Numeric}

/-- A value of the column scaled by no more than a digit for each place. -/
theorem abs_value_lt (low : 0 ≤ s) (fits : InShape p s x.value) : |x.value| < 10 ^ p.toNat := by
  obtain ⟨m, bound, is⟩ := fits
  have power : (10 : ℚ) ^ (-s) ≤ 1 := zpow_le_one_of_nonpos₀ (by norm_num) (by omega)
  have nonneg : (0 : ℚ) < 10 ^ (-s) := by positivity
  have cast : |(m : ℚ)| < 10 ^ p.toNat := by exact_mod_cast bound
  rw [is, abs_mul, abs_of_pos nonneg]
  nlinarith [abs_nonneg (m : ℚ)]

/-- A column of more than 76 digits: only a zero is short enough for a double. -/
theorem kept_float_iff (wide : 76 < (decimalShape p s).1) : Kept p s x ↔ x.value ≠ 0 := by
  have delivered : deliveredOfUdt ⟨"numeric", some p, some s⟩ = .float64 := if_neg (by omega)
  have is : written p s x = if x.bytes.length = 8 then .ok (.f64 [Copy.fromBe x.bytes])
      else .error (.err (bad "float8")) := by
    rw [written, delivered]
    show ((ColBuf.f64 []).pushPg x.bytes .float64).map Prod.fst = _
    rw [ColBuf.pushPg, sized]
    split <;> rfl
  rw [Numeric.length_bytes] at is
  rw [ne_eq, value_eq_zero_iff]
  constructor
  · intro kept none
    have eight : 8 + 2 * x.groups.length = 8 := by rw [none, List.length_nil]
    rw [if_pos eight] at is
    rcases kept with ⟨e, failed⟩ | ⟨v, places, precision, scale, wrote, -⟩
    · rw [is] at failed
      cases failed
    · rw [is] at wrote
      cases wrote
  · intro some_group
    have long : ¬ 8 + 2 * x.groups.length = 8 := by
      have positive := List.length_pos_iff.mpr some_group
      omega
    refine .inl ⟨bad "float8", ?_⟩
    rw [is, if_neg long]

/-- What is written for a decimal column. -/
theorem written_eq {P S : Nat} (shape : decimalShape p s = ((P : Int), (S : Int))) (small : P ≤ 76)
    (le : S ≤ P) :
    deliveredOfUdt ⟨"numeric", some p, some s⟩ = .decimal P S ∧
    written p s x = (numericToScaledI128 x.bytes (min S (clampPrecision P))).map fun n =>
      .dec [beInt 16 n] (min S (clampPrecision P)) := by
  have delivered : deliveredOfUdt ⟨"numeric", some p, some s⟩ = .decimal P S := by
    have within : (decimalShape p s).1 ≤ 76 := by
      rw [shape]
      exact Int.ofNat_le.mpr small
    have width : asU16 P = P := by
      rw [asU16]
      omega
    have places : asU16 S = S := by
      rw [asU16]
      omega
    show (if _ then Delivered.decimal _ _ else _) = _
    rw [if_pos within, shape, width, places]
  refine ⟨delivered, ?_⟩
  rw [written, delivered]
  show ((ColBuf.dec [] _).pushPg x.bytes _).map Prod.fst = _
  rw [ColBuf.pushPg]
  cases numericToScaledI128 x.bytes (min S (clampPrecision P)) with
  | error e => rfl
  | ok n => rfl

theorem clampPrecision_eq {P : Nat} (positive : 0 < P) : clampPrecision P = min P 38 := by
  rw [clampPrecision]
  split <;> omega

/-- The shape of a declaration, by the sign of its scale. -/
theorem shape_cases {P S : Nat} (shape : decimalShape p s = ((P : Int), (S : Int))) :
    (s < 0 ∧ (P : Int) = p - s ∧ S = 0) ∨ (0 ≤ s ∧ (P : Int) = max p s ∧ (S : Int) = s) := by
  rw [decimalShape] at shape
  split at shape
  case isTrue down =>
    have parts := Prod.mk.inj shape
    exact .inl ⟨down, parts.1.symm, by exact_mod_cast parts.2.symm⟩
  case isFalse up =>
    have parts := Prod.mk.inj shape
    exact .inr ⟨not_lt.mp up, parts.1.symm, parts.2.symm⟩

/-- A value with no digit past 38 places and below 38 digits is one of the clamped decimal. -/
theorem scaled_of_exact {P S : Nat} (shape : decimalShape p s = ((P : Int), (S : Int)))
    (positive : 1 ≤ p) (gate : p ≤ 38) (fits : InShape p s x.value) {z : Int}
    (whole : (z : ℚ) = x.value * 10 ^ 38) (below : |x.value| < 10 ^ 38) :
    ∃ n : Int, (n : ℚ) = x.value * 10 ^ min S 38 ∧ |n| < 10 ^ min P 38 := by
  rcases shape_cases shape with ⟨down, P_is, rfl⟩ | ⟨up, P_is, S_is⟩
  · obtain ⟨m, is_m, m_lt⟩ := fits.scaled positive
    rw [shape] at is_m m_lt
    have value : (m : ℚ) = x.value := by simpa using is_m
    have low : |m| < 10 ^ 38 := by
      rw [← value] at below
      exact_mod_cast below
    refine ⟨m, is_m, ?_⟩
    rcases min_choice P 38 with least | least
    · rw [least]
      exact m_lt
    · rw [least]
      exact low
  · obtain ⟨m, m_lt, is_m⟩ := fits
    have digits : |m| < 10 ^ 38 :=
      m_lt.trans_le (pow_le_pow_right₀ (by norm_num) (by omega))
    have value : (m : ℚ) = x.value * 10 ^ S := by
      rw [is_m, ← S_is, mul_assoc, ← zpow_natCast, ← zpow_add₀ (by norm_num)]
      simp
    by_cases few : S ≤ 38
    · have wide : p.toNat ≤ min P 38 := by omega
      refine ⟨m, ?_, m_lt.trans_le (pow_le_pow_right₀ (by norm_num) wide)⟩
      rw [Nat.min_eq_left few]
      exact value
    · have wide : min P 38 = 38 := by omega
      have split : (10 : ℚ) ^ S = 10 ^ 38 * 10 ^ (S - 38) := by
        rw [← pow_add]
        congr 1
        omega
      have moved : m = z * 10 ^ (S - 38) := by
        rw [split, ← mul_assoc, ← whole] at value
        exact_mod_cast value
      have one : (1 : Int) ≤ 10 ^ (S - 38) := one_le_pow₀ (by norm_num)
      have size : |z| ≤ |m| := by
        rw [moved, abs_mul, abs_of_pos (by omega : (0 : Int) < 10 ^ (S - 38))]
        exact le_mul_of_one_le_right (abs_nonneg z) one
      refine ⟨z, ?_, ?_⟩
      · rw [Nat.min_eq_right (by omega)]
        exact whole
      · rw [wide]
        exact size.trans_lt digits

/-- A column of at most 76 digits, by its shape. -/
theorem kept_decimal_iff {P S : Nat} (shape : decimalShape p s = ((P : Int), (S : Int)))
    (positive : 1 ≤ p) (gate : p ≤ 38) (small : P ≤ 76) (fits : InShape p s x.value) :
    Kept p s x ↔ TooLong x ∨ ((∃ z : Int, (z : ℚ) = x.value * 10 ^ 38) ∧ |x.value| < 10 ^ 38) := by
  have P_pos : 0 < P := by
    rcases shape_cases shape with ⟨_, _, _⟩ | ⟨_, _, _⟩ <;> omega
  have le : S ≤ P := by
    rcases shape_cases shape with ⟨_, _, _⟩ | ⟨_, _, _⟩ <;> omega
  obtain ⟨delivered, wrote⟩ := written_eq (x := x) shape small le
  have places : min S (min P 38) = min S 38 := by omega
  have logical : ∀ name id, (parquetField name
    (deliveredOfUdt ⟨"numeric", some p, some s⟩) id).logical =
      some (.decimal (min P 38) (min S 38)) := by
    intro name id
    rw [delivered]
    show some (Logical.decimal (clampPrecision P) (min S (clampPrecision P))) = _
    rw [clampPrecision_eq P_pos, places]
  rw [clampPrecision_eq P_pos, places] at wrote
  rcases scaled_cases x (Nat.min_le_right S 38) with ⟨why, failed⟩ | ⟨short, n, read, room, exact_n⟩
  · -- The load fails, and it is too long or has few places.
    rw [failed] at wrote
    have fails : Kept p s x := .inl ⟨_, wrote⟩
    refine iff_of_true fails ?_
    rcases why with long | few
    · exact .inl long
    · have up : 0 ≤ s := by
        rcases shape_cases shape with ⟨_, _, none⟩ | ⟨up, _, _⟩
        · rw [none] at few
          omega
        · exact up
      have value := cast_atDscale x
      have split : (10 : ℚ) ^ 38 = 10 ^ x.dscale * 10 ^ (38 - x.dscale) := by
        rw [← pow_add]
        congr 1
        omega
      have digits : (10 : ℚ) ^ p.toNat ≤ 10 ^ 38 := pow_le_pow_right₀ (by norm_num) (by omega)
      refine .inr ⟨⟨atDscale x * 10 ^ (38 - x.dscale), ?_⟩, (abs_value_lt up fits).trans_le digits⟩
      rw [split, ← mul_assoc, ← value]
      push_cast
      rfl
  · rw [read] at wrote
    have back : fromBeInt (beInt 16 n) = n := fromBeInt_beInt (by decide) room
    constructor
    · rintro (⟨e, failed⟩ | ⟨v, pl, precision, scale, wrote', -, declared, value, bound⟩)
      · rw [wrote] at failed
        cases failed
      · rw [wrote] at wrote'
        have is : v = beInt 16 n :=
          (List.cons.inj (ColBuf.dec.inj (Except.ok.inj wrote')).1).1.symm
        have same := (logical "" 0).symm.trans (declared "" 0)
        obtain ⟨rfl, rfl⟩ := Logical.decimal.inj (Option.some.inj same)
        rw [is, back] at value bound
        refine .inr ⟨⟨n * 10 ^ (38 - min S 38), ?_⟩, ?_⟩
        · have split : (10 : ℚ) ^ 38 = 10 ^ min S 38 * 10 ^ (38 - min S 38) := by
            rw [← pow_add]
            congr 1
            omega
          rw [split, ← mul_assoc, ← value]
          push_cast
          rfl
        · have cast : |(n : ℚ)| < 10 ^ 38 := by
            have digits : (10 : Int) ^ min P 38 ≤ 10 ^ 38 :=
              pow_le_pow_right₀ (by norm_num) (by omega)
            exact_mod_cast bound.trans_le digits
          have one : (1 : ℚ) ≤ 10 ^ min S 38 := one_le_pow₀ (by norm_num)
          rw [value, abs_mul, abs_of_pos (by positivity : (0 : ℚ) < 10 ^ min S 38)] at cast
          exact (le_mul_of_one_le_right (abs_nonneg _) one).trans_lt cast
    · rintro (long | ⟨⟨z, whole⟩, below⟩)
      · exact absurd long short
      · obtain ⟨k, is_k, k_lt⟩ := scaled_of_exact shape positive gate fits whole below
        have same : n = k := exact_n k is_k
        refine .inr ⟨beInt 16 n, _, _, _, wrote, ?_, logical, ?_, ?_⟩
        · rw [beInt, Copy.length_be]
        · rw [back, same, is_k]
        · rw [back, same]
          exact k_lt

/-- A value is kept exactly where it is a value of the clamped decimal or its load fails. -/
theorem numeric_kept_iff (admitted : parquetColOk "postgres" "numeric" (some p) = true)
    (fits : InShape p s x.value) : Kept p s x ↔ Exact p s x := by
  obtain ⟨positive, gate⟩ := admitted_precision admitted
  rw [Exact]
  by_cases small : (decimalShape p s).1 ≤ 76
  · rw [if_pos small]
    have nonneg : 0 ≤ (decimalShape p s).1 ∧ 0 ≤ (decimalShape p s).2 := by
      rw [decimalShape]
      split
      · constructor
        · dsimp only
          omega
        · exact le_refl 0
      · constructor
        · dsimp only
          omega
        · dsimp only
          omega
    have shape : decimalShape p s =
        (((decimalShape p s).1.toNat : Int), ((decimalShape p s).2.toNat : Int)) := by
      rw [Int.toNat_of_nonneg nonneg.1, Int.toNat_of_nonneg nonneg.2]
    exact kept_decimal_iff shape positive gate (by omega) fits
  · rw [if_neg small]
    exact kept_float_iff (by omega)

/-- The value 1234.56. -/
def amount : Numeric where
  neg := false
  weight := 0
  dscale := 2
  groups := [1234, 5600]
  group_lt := by decide
  count_lt := by decide
  weight_fits := Copy.Padded.price.weight_fits
  dscale_lt := Copy.Padded.price.dscale_lt
  head_ne := by decide
  last_ne := by decide
  zero := by decide
  covers := by decide

theorem amount_kept_iff :
    (parquetColOk "postgres" "numeric" (some 10) = true ∧ InShape 10 2 amount.value) ∧
      (Kept 10 2 amount ↔ Exact 10 2 amount) := by
  have fits : InShape 10 2 amount.value := by
    refine ⟨123456, by decide, ?_⟩
    norm_num [Numeric.value, Numeric.number, amount, Radix.value]
  exact ⟨⟨by decide, fits⟩, numeric_kept_iff (by decide) fits⟩

/-- The value 12345 scaled by 40 places. -/
def faint : Numeric where
  neg := false
  weight := -9
  dscale := 40
  groups := [1, 2345]
  group_lt := by decide
  count_lt := by decide
  weight_fits := by decide
  dscale_lt := by decide
  head_ne := by decide
  last_ne := by decide
  zero := by decide
  covers := by decide

/-- In a column declared numeric(5, 40) the last two of its five digits are dropped. -/
theorem faint_not_kept :
    ¬ ∀ p s : Int, 1 ≤ p → p ≤ 1000 → -1000 ≤ s → s ≤ 1000 →
      parquetColOk "postgres" "numeric" (some p) = true →
      ∀ x : Numeric, InShape p s x.value → Kept p s x := by
  intro always
  have value : faint.value = 12345 / 10 ^ 40 := by
    norm_num [Numeric.value, Numeric.number, faint, Radix.value]
  have fits : InShape 5 40 faint.value := by
    refine ⟨12345, by decide, ?_⟩
    rw [value]
    norm_num
  have kept := always 5 40 (by decide) (by decide) (by decide) (by decide) (by decide) faint fits
  have shape : decimalShape 5 40 = (((40 : Nat) : Int), ((40 : Nat) : Int)) := by decide
  have short : ¬ TooLong faint := by
    have both : faint.number < 2 ^ 127 ∧ faint.number * 10 ^ faint.shift.toNat < 2 ^ 127 := by
      decide
    exact not_not.mpr both
  rcases (kept_decimal_iff shape (by decide) (by decide) (by decide) fits).mp kept with h | h
  · exact short h
  · obtain ⟨⟨z, whole⟩, -⟩ := h
    rw [value] at whole
    have twice : z * 100 = 12345 := by
      have cast : (z : ℚ) * 100 = 12345 := by
        rw [whole]
        norm_num
      exact_mod_cast cast
    omega

end kept

end Apitap.Parquet
