import Mathlib.Data.Int.Log
import Mathlib.Data.Rat.Floor
import Mathlib.Order.WithBot
import Mathlib.Tactic.Linarith
import Mathlib.Tactic.NormNum
import Mathlib.Order.WithBotTop

/-!
# Rounding to binary64

The double nearest to a rational number, the even one of two, and what overflow makes
of it. All that a comparison of rounded numbers needs is that rounding is monotone: it
may merge two numbers, but never swaps them.
-/

namespace Apitap.Foundation

/-- The rational numbers with an infinity at either end. -/
abbrev Extended := WithBot (WithTop ℚ)

/-- The nearest integer, the even one of two. -/
def roundEven (q : ℚ) : ℤ :=
  if q - ⌊q⌋ < 1 / 2 then ⌊q⌋
  else if 1 / 2 < q - ⌊q⌋ then ⌊q⌋ + 1
  else if ⌊q⌋ % 2 = 0 then ⌊q⌋ else ⌊q⌋ + 1

theorem floor_le_roundEven (q : ℚ) : ⌊q⌋ ≤ roundEven q := by
  unfold roundEven
  split_ifs <;> omega

theorem roundEven_le (q : ℚ) : roundEven q ≤ ⌊q⌋ + 1 := by
  unfold roundEven
  split_ifs <;> omega

theorem roundEven_intCast (i : ℤ) : roundEven i = i := by
  rw [roundEven, Int.floor_intCast, if_pos (by norm_num)]

theorem roundEven_mono {x y : ℚ} (le : x ≤ y) : roundEven x ≤ roundEven y := by
  cases (Int.floor_le_floor le).lt_or_eq with
  | inl below => exact
        (roundEven_le x).trans ((Int.add_one_le_iff.mpr below).trans (floor_le_roundEven y))
  | inr same =>
      unfold roundEven
      rw [same]
      split_ifs <;> first | omega | linarith

/-- The step between doubles of a number's size; below `2 ^ -1022` it stays. -/
def unit (q : ℚ) : ℚ := 2 ^ (max (Int.log 2 q) (-1022) - 52)

theorem unit_pos (q : ℚ) : 0 < unit q := zpow_pos (by norm_num) _

/-- A number that is not negative on the grid of its own unit. -/
def onGrid (q : ℚ) : ℚ := roundEven (q / unit q) * unit q

theorem onGrid_nonneg {q : ℚ} (nonneg : 0 ≤ q) : 0 ≤ onGrid q := by
  have rounded : (0 : ℤ) ≤ roundEven (q / unit q) := by
    have := roundEven_mono (div_nonneg nonneg (unit_pos q).le)
    rwa [← Int.cast_zero, roundEven_intCast] at this
  exact mul_nonneg (by exact_mod_cast rounded) (unit_pos q).le

/-- The grid does not take a number past the next power of two. -/
theorem onGrid_le {q : ℚ} {e : ℤ} (size : max (Int.log 2 q) (-1022) = e) :
    onGrid q ≤ 2 ^ (e + 1) := by
  have unitEq : unit q = 2 ^ (e - 52) := by rw [unit, size]
  have split : (2 : ℚ) ^ (e + 1) = ((2 ^ 53 : ℤ) : ℚ) * 2 ^ (e - 52) := by
    rw [show e + 1 = 53 + (e - 52) by ring, zpow_add₀ (by norm_num)]
    norm_num
  have below : q ≤ 2 ^ (e + 1) :=
    (Int.lt_zpow_succ_log_self (b := 2) (by omega) q).le.trans
      (zpow_le_zpow_right₀ (by norm_num) (by omega))
  have scaled : q / unit q ≤ ((2 ^ 53 : ℤ) : ℚ) := by
    rw [div_le_iff₀ (unit_pos q), unitEq, ← split]
    exact below
  have rounded : roundEven (q / unit q) ≤ 2 ^ 53 := by
    have := roundEven_mono scaled
    rwa [roundEven_intCast] at this
  rw [onGrid, unitEq, split, ← unitEq]
  exact mul_le_mul_of_nonneg_right (by exact_mod_cast rounded) (unit_pos q).le

/-- Nor below the power of two it reaches. -/
theorem le_onGrid {q : ℚ} (pos : 0 < q) (normal : -1022 ≤ Int.log 2 q) :
    2 ^ Int.log 2 q ≤ onGrid q := by
  have unitEq : unit q = 2 ^ (Int.log 2 q - 52) := by rw [unit, max_eq_left normal]
  have split : (2 : ℚ) ^ Int.log 2 q = ((2 ^ 52 : ℤ) : ℚ) * 2 ^ (Int.log 2 q - 52) := by
    rw [show Int.log 2 q = 52 + (Int.log 2 q - 52) by ring, zpow_add₀ (by norm_num)]
    norm_num
  have scaled : ((2 ^ 52 : ℤ) : ℚ) ≤ q / unit q := by
    rw [le_div_iff₀ (unit_pos q), unitEq, ← split]
    exact Int.zpow_log_le_self (b := 2) (by omega) pos
  have rounded : 2 ^ 52 ≤ roundEven (q / unit q) := by
    have := roundEven_mono scaled
    rwa [roundEven_intCast] at this
  rw [onGrid, unitEq, split, ← unitEq]
  exact mul_le_mul_of_nonneg_right (by exact_mod_cast rounded) (unit_pos q).le

theorem onGrid_mono {x y : ℚ} (pos : 0 < x) (le : x ≤ y) : onGrid x ≤ onGrid y := by
  have sizes : Int.log 2 x ≤ Int.log 2 y := Int.log_mono_right pos le
  cases (max_le_max_right (-1022) sizes).lt_or_eq with
  | inr same =>
      have units : unit x = unit y := by rw [unit, unit, same]
      have scaled : x / unit x ≤ y / unit y := by
        rw [units]
        exact div_le_div_of_nonneg_right le (unit_pos y).le
      rw [onGrid, onGrid, units]
      rw [units] at scaled
      exact mul_le_mul_of_nonneg_right (by exact_mod_cast roundEven_mono scaled) (unit_pos y).le
  | inl below =>
      -- `y` lies in a higher binade, so a power of two stands between the two
      have normal : -1022 ≤ Int.log 2 y := by omega
      calc onGrid x ≤ 2 ^ (max (Int.log 2 x) (-1022) + 1) := onGrid_le rfl
        _ ≤ 2 ^ Int.log 2 y := zpow_le_zpow_right₀ (by norm_num) (by omega)
        _ ≤ onGrid y := le_onGrid (pos.trans_le le) normal

/-- A number rounded as if doubles had no largest exponent. -/
def unbounded (q : ℚ) : ℚ := if q < 0 then -onGrid (-q) else onGrid q

theorem unbounded_mono {x y : ℚ} (le : x ≤ y) : unbounded x ≤ unbounded y := by
  unfold unbounded
  split_ifs with negx negy negy
  · exact neg_le_neg (onGrid_mono (by linarith) (by linarith))
  · exact (neg_nonpos.mpr (onGrid_nonneg (by linarith))).trans (onGrid_nonneg (not_lt.mp negy))
  · linarith
  · cases (not_lt.mp negx).lt_or_eq with
    | inl pos => exact onGrid_mono pos le
    | inr zero =>
        subst zero
        have none : onGrid 0 = 0 := by
          rw [onGrid, zero_div, ← Int.cast_zero, roundEven_intCast, Int.cast_zero, zero_mul]
        rw [none]
        exact onGrid_nonneg le

/-- The nearest double, an infinity from `2 ^ 1024` on. -/
def toBinary64 (q : ℚ) : Extended :=
  if unbounded q ≤ -2 ^ 1024 then ⊥
  else if 2 ^ 1024 ≤ unbounded q then ((⊤ : WithTop ℚ) : Extended)
  else ((unbounded q : WithTop ℚ) : Extended)

theorem toBinary64_mono {x y : ℚ} (le : x ≤ y) : toBinary64 x ≤ toBinary64 y := by
  have mono := unbounded_mono le
  unfold toBinary64
  split_ifs with low low' high' high low' high' low' high'
  all_goals first
    | exact bot_le
    | exact le_rfl
    | exact WithBot.coe_le_coe.mpr le_top
    | exact WithBot.coe_le_coe.mpr (WithTop.coe_le_coe.mpr mono)
    | exact absurd (mono.trans low') low
    | exact absurd (high.trans mono) high'

/-- An extended number as a double. -/
def Extended.toBinary64 : Extended → Extended
  | some (some q) => Foundation.toBinary64 q
  | x => x

theorem Extended.toBinary64_mono {x y : Extended} (le : x ≤ y) :
    x.toBinary64 ≤ y.toBinary64 := by
  cases x using WithBot.recBotCoe with
  | bot => exact bot_le
  | coe x =>
      cases y using WithBot.recBotCoe with
      | bot => exact absurd le (WithBot.not_coe_le_bot x)
      | coe y =>
          have le : x ≤ y := WithBot.coe_le_coe.mp le
          cases y using WithTop.recTopCoe with
          | top =>
              change _ ≤ (⊤ : Extended)
              exact le_top
          | coe y =>
              cases x using WithTop.recTopCoe with
              | top => exact absurd le (WithTop.not_top_le_coe y)
              | coe x => exact Foundation.toBinary64_mono (WithTop.coe_le_coe.mp le)

/-- Rounding keeps the order of what it keeps apart. -/
theorem Extended.compare_toBinary64 {x y : Extended}
    (apart : x.toBinary64 = y.toBinary64 → x = y) :
    compare x.toBinary64 y.toBinary64 = compare x y := by
  rcases lt_trichotomy x y with below | same | above
  · have distinct : x.toBinary64 ≠ y.toBinary64 := fun eq => below.ne (apart eq)
    rw [compare_lt_iff_lt.mpr below,
      compare_lt_iff_lt.mpr ((toBinary64_mono below.le).lt_of_ne distinct)]
  · rw [same, compare_eq_iff_eq.mpr rfl, compare_eq_iff_eq.mpr rfl]
  · have distinct : y.toBinary64 ≠ x.toBinary64 := fun eq => above.ne' (apart eq.symm)
    rw [compare_gt_iff_gt.mpr above,
      compare_gt_iff_gt.mpr ((toBinary64_mono above.le).lt_of_ne distinct)]

end Apitap.Foundation
