import Apitap.Wire.RowBinary

/-!
# A NUMERIC column into a Decimal

Every value of numeric(p, s) reaches a Decimal of the shape the column was given, where its
digits, padded to whole base-10000 groups, stay within 128 bits. The accumulator holds the
padded digits before they are shifted down, so a value near 38 digits whose fraction does not
fill its last group is refused.
-/

namespace Apitap.Copy

open Foundation

/-- A value of numeric(p, s): an integer of at most `p` digits, scaled. -/
def InShape (p s : Int) (v : ℚ) : Prop := ∃ m : Int, |m| < 10 ^ p.toNat ∧ v = m * 10 ^ (-s)

/-- The value arrives: the scaled integer is exact, and so are the bytes of the width chosen
for the column. -/
def Arrives (f64 : Int → Int → Bytes) (p s : Int) (x : Numeric) : Prop :=
  let scale := (decimalShape p s).2.toNat
  ∃ z : Int, (z : ℚ) = x.value * 10 ^ scale ∧ numericToScaledI128 x.bytes scale = .ok z ∧
    ∃ width out, rbType "numeric" (some p) (some s) = some (.decimal width scale) ∧
      transcodeField f64 (.decimal width scale) x.bytes = .ok out ∧
      out.length = width ∧ fromLeInt out = z

variable {f64 : Int → Int → Bytes} {p s : Int} {x : Numeric}

/-- A value of the column's type is an integer of at most the shape's digits at its scale. -/
theorem InShape.scaled {v : ℚ} (positive : 0 < p) (fits : InShape p s v) :
    ∃ z : Int, (z : ℚ) = v * 10 ^ (decimalShape p s).2.toNat ∧
      |z| < 10 ^ (decimalShape p s).1.toNat := by
  obtain ⟨m, bound, rfl⟩ := fits
  by_cases down : s < 0
  · have shape : decimalShape p s = (p - s, 0) := if_pos down
    have width : (p - s).toNat = p.toNat + (-s).toNat := by omega
    rw [shape]
    refine ⟨m * 10 ^ (-s).toNat, ?_, ?_⟩
    · have power : (10 : ℚ) ^ (-s) = 10 ^ (-s).toNat := by
        rw [← zpow_natCast, Int.toNat_of_nonneg (by omega)]
      rw [power]
      push_cast
      simp
    · rw [abs_mul, abs_pow, width, pow_add]
      exact mul_lt_mul_of_pos_right bound (by positivity)
  · have shape : decimalShape p s = (max p s, s) := if_neg down
    have width : p.toNat ≤ (max p s).toNat := by omega
    rw [shape]
    refine ⟨m, ?_, bound.trans_le (pow_le_pow_right₀ (by norm_num) width)⟩
    have cancel : (10 : ℚ) ^ (-s) * 10 ^ s.toNat = 1 := by
      rw [← zpow_natCast, Int.toNat_of_nonneg (by omega), ← zpow_add₀ (by norm_num)]
      simp
    rw [mul_assoc, cancel, mul_one]

/-- The signed number at the display scale, moved to a larger scale. -/
theorem scaled_eq {scale : Nat} {z : Int} (within : x.dscale ≤ scale)
    (exact : (z : ℚ) = x.value * 10 ^ scale) :
    z = (if x.neg then -(x.scaled : Int) else x.scaled) * 10 ^ (scale - x.dscale) := by
  have split : (10 : ℚ) ^ scale = 10 ^ x.dscale * 10 ^ (scale - x.dscale) := by
    rw [← pow_add, Nat.add_sub_cancel' within]
  rw [split, ← mul_assoc, x.value_scaled] at exact
  rw [← Int.cast_inj (α := ℚ), exact]
  cases x.neg with
  | false => simp
  | true => simp

/-- What the decoder gives where the padded digits fit. -/
theorem numericToScaledI128_bytes {scale : Nat} {z : Int} (within : x.dscale ≤ scale)
    (exact : (z : ℚ) = x.value * 10 ^ scale) (bound : |z| < 10 ^ 38) (scale_le : scale ≤ 38) :
    numericToScaledI128 x.bytes scale =
      if x.number < 2 ^ 127 then .ok z else .error (.err (bad "numeric overflow")) := by
  have is := scaled_eq within exact
  have size : |z| = x.scaled * 10 ^ (scale - x.dscale) := by
    rw [is, abs_mul, abs_pow]
    cases x.neg with
    | false => simp
    | true => simp
  have one : (1 : Int) ≤ 10 ^ (scale - x.dscale) := one_le_pow₀ (by norm_num)
  have below : (x.scaled : Int) < 10 ^ 38 := by nlinarith [Int.natCast_nonneg x.scaled]
  have limit : (10 : Int) ^ 38 < 2 ^ 127 := by norm_num
  rw [numericToScaledI128, x.raw_bytes, x.shifted_number]
  by_cases small : x.number < 2 ^ 127
  · have product : x.number * 10 ^ x.shift.toNat < 2 ^ 127 := by
      rcases Int.le_total x.shift 0 with down | up
      · rw [Int.toNat_of_nonpos down, pow_zero, Nat.mul_one]
        exact small
      · have none : (-x.shift).toNat = 0 := by omega
        have whole : x.scaled = x.number * 10 ^ x.shift.toNat := by
          rw [Numeric.scaled, none, pow_zero, Nat.div_one]
        rw [← whole]
        exact_mod_cast below.trans limit
    rw [if_pos ⟨small, product⟩, if_pos small, Stop.orErr_some, Except.map, Stop.ok_bind]
    dsimp only
    by_cases same : (scale : Int) - x.dscale = 0
    · have none : scale - x.dscale = 0 := by omega
      rw [if_pos same, is, none, pow_zero, mul_one]
    · have up : 0 < (scale : Int) - x.dscale := by omega
      have diff : ((scale : Int) - x.dscale).toNat = scale - x.dscale := by omega
      have power : checkedPow (scale - x.dscale) = some (10 ^ (scale - x.dscale)) := by
        have le : (10 : Int) ^ (scale - x.dscale) ≤ 10 ^ 38 :=
          pow_le_pow_right₀ (by norm_num) (by omega)
        exact checked_of_fits (fits_of_nonneg (by positivity) (le.trans_lt limit))
      have fits : Fits 128 z := by
        obtain ⟨low, high⟩ := abs_lt.mp (bound.trans limit)
        exact ⟨low.le, high⟩
      rw [if_neg same, if_pos up, diff, power, Stop.orErr_some, Stop.ok_bind, ← is,
        checked_of_fits fits, Stop.orErr_some]
  · rw [if_neg fun both => small both.1, if_neg small, Stop.orErr_none, Except.map,
      Stop.error_bind]

/-- The width chosen for a shape holds its values. -/
theorem decimalBytes_of_shape {P : Int} {z : Int} (bound : |z| < 10 ^ P.toNat) (shape : P ≤ 38) :
    ∃ out, decimalBytes (if P ≤ 9 then 4 else if P ≤ 18 then 8 else 16) z = .ok out ∧
      out.length = (if P ≤ 9 then 4 else if P ≤ 18 then 8 else 16) ∧ fromLeInt out = z := by
  have holds {w n : Nat} (le : P.toNat ≤ n) (room : (10 : Int) ^ n < 2 ^ (8 * w - 1)) :
      Fits (8 * w) z := by
    have power : (10 : Int) ^ P.toNat ≤ 10 ^ n := pow_le_pow_right₀ (by norm_num) le
    obtain ⟨low, high⟩ := abs_lt.mp (bound.trans_le (power.trans room.le))
    exact ⟨low.le, high⟩
  by_cases nine : P ≤ 9
  · have fits : Fits (8 * 4) z := holds (n := 9) (by omega) (by norm_num)
    refine ⟨leInt 4 z, ?_, ?_, fromLeInt_leInt (by decide) fits⟩
    · rw [if_pos nine, decimalBytes, if_pos (.inl rfl), if_pos fits]
    · rw [if_pos nine, length_leInt]
  · rw [if_neg nine]
    by_cases eighteen : P ≤ 18
    · have fits : Fits (8 * 8) z := holds (n := 18) (by omega) (by norm_num)
      refine ⟨leInt 8 z, ?_, ?_, fromLeInt_leInt (by decide) fits⟩
      · rw [if_pos eighteen, decimalBytes, if_pos (.inr rfl), if_pos fits]
      · rw [if_pos eighteen, length_leInt]
    · have fits : Fits (8 * 16) z := holds (n := 38) (by omega) (by norm_num)
      refine ⟨leInt 16 z, ?_, ?_, fromLeInt_leInt (by decide) fits⟩
      · rw [if_neg eighteen, decimalBytes, if_neg (by decide)]
      · rw [if_neg eighteen, length_leInt]

/-- A value of the column's type arrives exactly where its padded digits leave room. -/
theorem arrives_iff (positive : 0 < p) (shape : (decimalShape p s).1 ≤ 38)
    (scale : (x.dscale : Int) ≤ (decimalShape p s).2) (fits : InShape p s x.value) :
    Arrives f64 p s x ↔ x.number < 2 ^ 127 := by
  obtain ⟨z, exact, bound⟩ := fits.scaled positive
  have within : x.dscale ≤ (decimalShape p s).2.toNat := by omega
  have wide : |z| < 10 ^ 38 := bound.trans_le (pow_le_pow_right₀ (by norm_num) (by omega))
  have scale_le : (decimalShape p s).2.toNat ≤ 38 := by
    have le : (decimalShape p s).2 ≤ max (decimalShape p s).1 0 := by
      rw [decimalShape]
      split
      · exact le_max_right _ _
      · exact (le_max_right p s).trans (le_max_left _ _)
    omega
  have decoded := numericToScaledI128_bytes within exact wide scale_le
  constructor
  · rintro ⟨z', -, arrived, -⟩
    by_contra large
    rw [decoded, if_neg large] at arrived
    cases arrived
  · intro small
    rw [if_pos small] at decoded
    obtain ⟨out, written, length, back⟩ := decimalBytes_of_shape bound shape
    have column : rbType "numeric" (some p) (some s) = some (.decimal
        (if (decimalShape p s).1 ≤ 9 then 4 else if (decimalShape p s).1 ≤ 18 then 8 else 16)
        (decimalShape p s).2.toNat) := if_pos shape
    refine ⟨z, exact, decoded, _, out, column, ?_, length, back⟩
    rw [transcodeField, decoded, Stop.ok_bind]
    exact written

namespace Padded

/-- 12.34 -/
def price : Numeric where
  neg := false
  weight := 0
  dscale := 2
  groups := [12, 3400]
  group_lt := by decide
  count_lt := by decide
  weight_fits := by decide
  dscale_lt := by decide
  head_ne := by decide
  last_ne := by decide
  zero := by decide
  covers := by decide

theorem arrives_price :
    Arrives (fun _ _ => []) 5 2 price ↔ price.number < 2 ^ 127 := by
  refine arrives_iff (by decide) (by decide) (by decide) ⟨1234, by decide, ?_⟩
  have number : price.number = 123400 := by decide
  rw [Numeric.value, number]
  norm_num [price]

/-- 10^36 + 1/2, of numeric(38, 1): 37 digits before the point. -/
def half : Numeric where
  neg := false
  weight := 9
  dscale := 1
  groups := [1, 0, 0, 0, 0, 0, 0, 0, 0, 0, 5000]
  group_lt := by decide
  count_lt := by decide
  weight_fits := by decide
  dscale_lt := by decide
  head_ne := by decide
  last_ne := by decide
  zero := by decide
  covers := by decide +kernel

/-- A value of the declared type is refused. -/
theorem half_is_refused :
    ((decimalShape 38 1).1 ≤ 38 ∧ (half.dscale : Int) ≤ (decimalShape 38 1).2 ∧
      InShape 38 1 half.value) ∧ ¬ Arrives (fun _ _ => []) 38 1 half := by
  have number : half.number = 10 ^ 40 + 5000 := by decide +kernel
  refine ⟨⟨by decide, by decide, 10 ^ 37 + 5, by decide +kernel, ?_⟩, ?_⟩
  · rw [Numeric.value, number]
    norm_num [half]
  · rintro ⟨z, -, arrived, -⟩
    have refused : numericToScaledI128 half.bytes 1 = .error (.err (bad "numeric overflow")) := by
      decide +kernel
    have scale : (decimalShape 38 1).2.toNat = 1 := by decide
    rw [scale, refused] at arrived
    cases arrived

end Padded

end Apitap.Copy
