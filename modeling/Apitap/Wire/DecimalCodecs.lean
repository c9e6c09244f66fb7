import Apitap.Wire.BinlogDecimal
import Apitap.Wire.NumericField

/-!
# The decimal codecs against each other

A numeric's two renderers print one text, which denotes its value and is encoded back as the
payload it came from; a packed DECIMAL is decoded to the text of its value. A payload whose
display scale hides a digit, or a zero with a weight, is none of a server's: the first prints
less than its value, and on the second the two renderers differ.
-/

namespace Apitap.Copy

open Foundation Decimal

/-- How many digits a text has. -/
def digitCount (t : Bytes) : Nat := t.countP fun b => 48 ≤ b ∧ b ≤ 57

theorem digitCount_append (u v : Bytes) : digitCount (u ++ v) = digitCount u + digitCount v :=
  List.countP_append

theorem digitCount_ascii {ds : List Nat} (within : ∀ d ∈ ds, d < 10) :
    digitCount (ascii ds) = ds.length := by
  have all : ∀ b ∈ ascii ds, decide (48 ≤ b ∧ b ≤ 57) = true := by
    intro b b_mem
    obtain ⟨d, d_mem, rfl⟩ := List.mem_map.mp b_mem
    have code := toNat_ascii (within d d_mem)
    have small := within d d_mem
    rw [decide_eq_true_eq, UInt8.le_iff_toNat_le, UInt8.le_iff_toNat_le, code]
    exact ⟨Nat.le_add_right 48 d, show 48 + d ≤ 57 by omega⟩
  rw [digitCount, List.countP_eq_length.mpr all, length_ascii]

theorem digitCount_text (neg : Bool) {int frac : List Nat} (int_lt : ∀ d ∈ int, d < 10)
    (frac_lt : ∀ d ∈ frac, d < 10) :
    digitCount (text neg int frac) = int.length + frac.length := by
  have sign : digitCount (if neg then [45] else []) = 0 := by
    cases neg with
    | true => rfl
    | false => rfl
  have point : digitCount (if frac = [] then [] else 46 :: ascii frac) = frac.length := by
    split
    case isTrue none =>
        rw [none]
        rfl
    case isFalse =>
        have front : digitCount [46] = 0 := rfl
        rw [← List.singleton_append, digitCount_append, front,
          digitCount_ascii frac_lt, Nat.zero_add]
  rw [text, digitCount_append, digitCount_append, sign, digitCount_ascii int_lt,
    point, Nat.zero_add]

/-- The value of a DECIMAL column's value. -/
theorem fixed_denotes (x : Rows.Fixed) : Denotes x.text x.scale (x.units / 10 ^ x.scale) := by
  have frac_lt : ∀ d ∈ Radix.digits 10 x.scale x.frac, d < 10 := Radix.digits_lt (by decide)
  have within : ∀ d ∈ itoa x.int ++ Radix.digits 10 x.scale x.frac, d < 10 := by
    intro d d_mem
    rcases List.mem_append.mp d_mem with front | back
    · exact itoa_lt _ d front
    · exact frac_lt d back
  have plain : itoa x.int = plain (Radix.digits 10 x.int x.int) :=
    (plain_digits (Nat.lt_pow_self (by decide))).symm
  have some_int : itoa x.int ≠ [] := plain ▸ plain_ne_nil
  have units : Radix.value 10 (itoa x.int ++ Radix.digits 10 x.scale x.frac) = x.units.natAbs := by
    rw [Radix.value_append, value_itoa, Radix.length_digits,
      Radix.value_digits_of_lt Rows.Fixed.frac_lt, Rows.Fixed.int, Rows.Fixed.frac, Nat.mul_comm]
    exact Nat.div_add_mod _ _
  refine ⟨?_, x.neg, _, _, rfl, within, some_int, ?_, Radix.length_digits⟩
  · rw [Rows.Fixed.text, read_text within some_int, units, Radix.length_digits, Rows.Fixed.neg]
    congr 1
    by_cases below : x.units < 0
    · have abs : (x.units.natAbs : ℚ) = -x.units := by
        rw [← Int.cast_natCast, Int.ofNat_natAbs_of_nonpos below.le]
        push_cast
        rfl
      rw [abs, decide_eq_true below, if_pos rfl]
      ring
    · have abs : (x.units.natAbs : ℚ) = x.units := by
        rw [← Int.cast_natCast, Int.natAbs_of_nonneg (Int.not_lt.mp below)]
      rw [abs, decide_eq_false below, if_neg Bool.false_ne_true, one_mul]
  · rw [plain]
    exact length_plain_of_head

/-- Both renderers print one text of a numeric; it denotes the value with as many fraction
digits as the display scale, and with at most a hundred digits it is made into the payload
again. A packed DECIMAL is decoded to the text of its value, from exactly its bytes. -/
theorem decimal_codecs_agree :
    (∀ (x : Numeric) (name : String), ∃ t,
      BinDec.numeric x.bytes = .ok t ∧ MyTsv.renderNumeric name x.bytes = .ok t ∧
        Denotes t x.dscale x.value ∧
        (digitCount t ≤ 100 → numericFieldFromStr (asChars t) = .ok (field (some x.bytes)))) ∧
    ∀ x : Rows.Fixed, (Rows.decodeDecimal x.precision x.scale).Reads x.packed x.text ∧
      Denotes x.text x.scale (x.units / 10 ^ x.scale) := by
  refine ⟨fun x name => ⟨x.shown, Numeric.bindec_numeric, Numeric.tsv_numeric name,
    Numeric.shown_denotes x, fun few => Numeric.field_of_shown ?_⟩,
    fun x => ⟨Rows.Fixed.decimal_reads, fixed_denotes x⟩⟩
  rwa [Numeric.shown, digitCount_text x.neg Numeric.intDigits_lt Numeric.fracDigits_lt] at few

namespace Hidden

/-- 1.5 with a display scale of 0. -/
def oneAndAHalf : Bytes := [0, 2, 0, 0, 0, 0, 0, 0, 0, 1, 0x13, 0x88]

/-- No groups, and a weight of 1. -/
def weightedZero : Bytes := [0, 0, 0, 1, 0, 0, 0, 0]

/-- A hidden digit is lost, and a zero with a weight has two texts. -/
theorem hidden_digit_is_lost :
    BinDec.numeric oneAndAHalf = .ok [49] ∧ ¬ Denotes [49] 0 (3 / 2) ∧
      BinDec.numeric weightedZero = .ok [48, 48, 48, 48, 48] ∧
      MyTsv.renderNumeric "" weightedZero = .ok [48] := by
  refine ⟨by decide +kernel, ?_, by decide +kernel, by decide +kernel⟩
  rintro ⟨value, -⟩
  have one : read [49] = 1 := by decide +kernel
  rw [one] at value
  norm_num at value

end Hidden

end Apitap.Copy
