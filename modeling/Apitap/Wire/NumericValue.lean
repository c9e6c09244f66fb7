import Apitap.Wire.Numeric
import Mathlib.Algebra.Order.Field.Power
import Mathlib.Data.Nat.Cast.Field
import Mathlib.Data.Rat.Cast.Order
import Mathlib.Tactic.FieldSimp

/-!
# The numerics a server sends

A finite numeric in canonical form: base-10000 groups with no zero group at either end, the
weight of the first group, a sign, and a display scale that hides no digit. Its payload, its
value, and what the decoder makes of the one in terms of the other.
-/

namespace Apitap.Copy

open Foundation

structure Numeric where
  neg : Bool
  weight : Int
  dscale : Nat
  groups : List Nat
  group_lt : ∀ d ∈ groups, d < 10000
  count_lt : groups.length < 2 ^ 15
  weight_fits : Fits 16 weight
  dscale_lt : dscale < 2 ^ 14
  /-- Zero groups are stripped at both ends. -/
  head_ne : groups.head? ≠ some 0
  last_ne : groups.getLast? ≠ some 0
  /-- Zero is plain. -/
  zero : groups = [] → neg = false ∧ weight = 0
  /-- No stored digit lies past the display scale. -/
  covers : 10 ^ (4 * (groups.length - 1 - weight) - dscale).toNat ∣ Radix.value 10000 groups

namespace Numeric

variable (x : Numeric)

/-- The groups as one number. -/
def number : Nat := Radix.value 10000 x.groups

/-- The value sent. -/
def value : ℚ :=
  (if x.neg then -1 else 1) * x.number * 10000 ^ (x.weight - x.groups.length + 1)

/-- The weight as a 16-bit word. -/
def weightWord : Nat := (x.weight % 65536).toNat

def bytes : Bytes :=
  be 2 x.groups.length ++ be 2 x.weightWord ++ be 2 (if x.neg then 0x4000 else 0x0000) ++
    be 2 x.dscale ++ x.groups.flatMap (be 2)

/-! ## The payload read back -/

@[simp] theorem length_bytes : x.bytes.length = 8 + 2 * x.groups.length := by
  have groups : (x.groups.flatMap (be 2)).length = 2 * x.groups.length := by
    rw [List.length_flatMap]
    simp [List.sum_replicate, Nat.mul_comm]
  simp [bytes, groups]
  omega

theorem weightWord_lt : x.weightWord < 2 ^ 16 := by
  rw [weightWord]
  omega

theorem i16_weightWord : i16 x.weightWord = x.weight := by
  obtain ⟨low, high⟩ := x.weight_fits
  norm_num at low high
  rw [i16_eq x.weightWord_lt, weightWord]
  split
  · omega
  · omega

/-- The word at an offset, after what stands before it. -/
theorem word_append {u v : Bytes} {n : Nat} (fits : n < 2 ^ 16) :
    word (u ++ be 2 n ++ v) u.length = n := by
  rw [word, List.append_assoc, List.drop_left, List.take_append_of_le_length length_be.ge,
    List.take_of_length_le length_be.le, fromBe_be fits]

theorem word_count : word x.bytes 0 = x.groups.length := by
  have at_ := word_append (u := []) (v := be 2 x.weightWord ++
    (be 2 (if x.neg then 0x4000 else 0x0000) ++ (be 2 x.dscale ++ x.groups.flatMap (be 2))))
    (x.count_lt.trans (by decide))
  simpa [bytes] using at_

theorem word_weight : word x.bytes 2 = x.weightWord := by
  have at_ := word_append (u := be 2 x.groups.length)
    (v := be 2 (if x.neg then 0x4000 else 0x0000) ++ (be 2 x.dscale ++ x.groups.flatMap (be 2)))
    x.weightWord_lt
  simpa [bytes] using at_

theorem word_sign : word x.bytes 4 = if x.neg then 0x4000 else 0x0000 := by
  have at_ := word_append (u := be 2 x.groups.length ++ be 2 x.weightWord)
    (v := be 2 x.dscale ++ x.groups.flatMap (be 2))
    (show (if x.neg then 0x4000 else 0x0000) < 2 ^ 16 by split <;> decide)
  simpa [bytes] using at_

theorem word_dscale : word x.bytes 6 = x.dscale := by
  have at_ := word_append (u := be 2 x.groups.length ++ be 2 x.weightWord ++
    be 2 (if x.neg then 0x4000 else 0x0000)) (v := x.groups.flatMap (be 2))
    (x.dscale_lt.trans (by decide))
  simpa [bytes] using at_

theorem groups_append {h : Bytes} (eight : h.length = 8) (ds : List Nat) (v : Bytes)
    (words : ∀ d ∈ ds, d < 2 ^ 16) :
    Copy.groups (h ++ ds.flatMap (be 2) ++ v) ds.length = ds := by
  induction ds using List.reverseRecOn generalizing v with
  | nil => rfl
  | append_singleton ds d ih =>
      have front := ih (be 2 d ++ v) fun e e_mem => words e (List.mem_append_left _ e_mem)
      have len : (h ++ ds.flatMap (be 2)).length = 8 + 2 * ds.length := by
        simp [eight, List.length_flatMap, Nat.mul_comm]
      have last := word_append (u := h ++ ds.flatMap (be 2)) (v := v) (words d (by simp))
      rw [len] at last
      have same : h ++ (ds ++ [d]).flatMap (be 2) ++ v = h ++ ds.flatMap (be 2) ++ be 2 d ++ v := by
        simp
      rw [List.length_append, List.length_singleton, Copy.groups, same, last,
        List.append_assoc _ _ v,
        front]

theorem groups_bytes : Copy.groups x.bytes x.groups.length = x.groups := by
  have all := groups_append (h := be 2 x.groups.length ++ be 2 x.weightWord ++
    be 2 (if x.neg then 0x4000 else 0x0000) ++ be 2 x.dscale) (by simp) x.groups []
    fun d d_mem => (x.group_lt d d_mem).trans (by decide)
  rwa [List.append_nil] at all

theorem digits_bytes : digits x.bytes = x.number := by
  rw [digits, word_count, groups_bytes, number]

/-- The shift from the groups' number to the display scale. -/
def shift : Int := (x.weight - x.groups.length + 1) * 4 + x.dscale

theorem exponent_bytes : exponent x.bytes = x.shift := by
  rw [exponent, word_count, word_weight, word_dscale, i16_weightWord, shift]

theorem plain : Plain x.bytes where
  header := by rw [length_bytes]; omega
  count := by rw [word_count]; exact x.count_lt
  sign := by rw [word_sign]; split <;> simp
  room := by rw [length_bytes, word_count]; omega

theorem number_lt : x.number < 10000 ^ x.groups.length := Radix.value_lt x.group_lt

/-- Groups below 10000 stay under the bound the fast path relies on. -/
theorem not_escapes : ¬ Escapes x.bytes := by
  intro escapes
  have count := escapes.count
  have large := escapes.large
  have lt := x.number_lt
  rw [word_count] at count
  rw [digits_bytes] at large
  rw [count] at lt
  omega

theorem raw_bytes :
    numericToScaledI128Raw x.bytes =
      (Stop.orErr (bad "numeric overflow") (shifted x.number x.shift)).map fun v =>
        (if x.neg then -v else v, (x.dscale : Int)) := by
  rw [raw_eq_general x.not_escapes, general_plain x.plain, digits_bytes, exponent_bytes, word_sign,
    word_dscale]
  cases x.neg with
  | false => rfl
  | true => rfl

/-! ## Against the value -/

/-- The value at the display scale, without its sign. -/
def scaled : Nat := x.number * 10 ^ x.shift.toNat / 10 ^ (-x.shift).toNat

theorem shifted_number :
    shifted x.number x.shift =
      if x.number < 2 ^ 127 ∧ x.number * 10 ^ x.shift.toNat < 2 ^ 127 then some (x.scaled : Int)
      else none := by
  have product : (x.number : Int) * 10 ^ x.shift.toNat = (x.number * 10 ^ x.shift.toNat : Nat) := by
    push_cast
    rfl
  have quotient : ((x.number * 10 ^ x.shift.toNat : Nat) : Int) / 10 ^ (-x.shift).toNat =
    x.scaled := by
    rw [scaled]
    push_cast
    rfl
  rw [shifted]
  by_cases small : x.number < 2 ^ 127
  · rw [checked_of_fits (fits_natCast.mpr small), Option.bind_some, product]
    by_cases large : x.number * 10 ^ x.shift.toNat < 2 ^ 127
    · rw [checked_of_fits (fits_natCast.mpr large), Option.map_some, quotient,
        if_pos ⟨small, large⟩]
    · rw [checked_eq_none (mt fits_natCast.mp large), if_neg fun both => large both.2]
      rfl
  · rw [checked_eq_none (mt fits_natCast.mp small), if_neg fun both => small both.1]
    rfl

theorem cast_scaled : (x.scaled : ℚ) = x.number * 10 ^ x.shift := by
  rcases Int.le_total 0 x.shift with up | down
  · have none : (-x.shift).toNat = 0 := by omega
    have power : (10 : ℚ) ^ x.shift = 10 ^ x.shift.toNat := by
      rw [← zpow_natCast, Int.toNat_of_nonneg up]
    rw [scaled, none, pow_zero, Nat.div_one, power]
    push_cast
    rfl
  · have none : x.shift.toNat = 0 := by omega
    have hidden : 4 * ((x.groups.length : Int) - 1 - x.weight) - x.dscale = -x.shift := by
      rw [shift]
      ring
    have whole : 10 ^ (-x.shift).toNat ∣ x.number := hidden ▸ x.covers
    have power : (10 : ℚ) ^ x.shift = (10 ^ (-x.shift).toNat)⁻¹ := by
      rw [← zpow_natCast, Int.toNat_of_nonneg (by omega), zpow_neg, inv_inv]
    rw [scaled, none, pow_zero, Nat.mul_one, Nat.cast_div whole (by positivity), power]
    push_cast
    rfl

theorem value_scaled : x.value * 10 ^ x.dscale = (if x.neg then -1 else 1) * x.scaled := by
  have base : (10000 : ℚ) ^ (x.weight - x.groups.length + 1) * 10 ^ x.dscale = 10 ^ x.shift := by
    have groups : (10000 : ℚ) = 10 ^ (4 : Int) := by norm_num
    rw [groups, ← zpow_mul, ← zpow_natCast, ← zpow_add₀ (by norm_num), shift]
    ring_nf
  rw [value, cast_scaled, mul_assoc, base, mul_assoc]

end Numeric

end Apitap.Copy
