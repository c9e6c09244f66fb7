import Apitap.Wire.CursorOrder

/-!
# Integers and decimals as cursor texts

A scaled number as its integer part and exactly `scale` digits behind the point. Compared as
numbers the texts go by the number; compared as texts, by the integer parts as they are shown,
and below zero the other way round.
-/

namespace Apitap.Parquet

open Foundation
open TextOrder (compare_append)
open Mysource (Text)
open Plan (natOf fracOf digits Parts)

/-! ## The digits around the point -/

/-- One digit less. -/
theorem padded_step (w n : Nat) :
    padded (w + 2) n = padded (w + 1) (n / 10) ++ [Char.ofNat (48 + n % 10)] := by
  rw [padded, padded]
  by_cases large : 10 ≤ n
  · have fill : w + 2 - (Decimal.itoa (n / 10) ++ [n % 10]).length =
        w + 1 - (Decimal.itoa (n / 10)).length := by
      rw [List.length_append, List.length_singleton]
      omega
    rw [Decimal.itoa_step large, fill, ← List.append_assoc, digitText, List.map_append]
    rfl
  · have zero : n / 10 = 0 := by omega
    have self : n % 10 = n := by omega
    rw [Decimal.itoa_of_lt (by omega), zero, self, Decimal.itoa_of_lt (by decide)]
    show digitText (List.replicate (w + 1) 0 ++ [n]) = digitText (List.replicate w 0 ++ [0]) ++ _
    rw [← List.replicate_succ', digitText, List.map_append]
    rfl

/-- A padded number in two parts. -/
theorem padded_split (scale n : Nat) :
    ∃ f, padded (scale + 1) n = padded 1 (n / 10 ^ scale) ++ f ∧ f.length = scale := by
  induction scale generalizing n with
  | zero => exact ⟨[], by rw [pow_zero, Nat.div_one, List.append_nil], rfl⟩
  | succ scale ih =>
      obtain ⟨f, split, length⟩ := ih (n / 10)
      refine ⟨f ++ [Char.ofNat (48 + n % 10)], ?_, ?_⟩
      · rw [padded_step, split, Nat.div_div_eq_div_mul, Nat.pow_succ', List.append_assoc]
      · rw [List.length_append, length]
        rfl

/-- A sign before a text. -/
def signText (z : Int) : Text := if z < 0 then ['-'] else []

/-- A scaled number around its point. -/
theorem decimalText_eq {scale : Nat} (positive : 0 < scale) (z : Int) :
    ∃ f, decimalText scale z = signText z ++ (padded 1 (z.natAbs / 10 ^ scale) ++ '.' :: f) ∧
      digits f = true ∧ f.length = scale ∧
        natOf f + z.natAbs / 10 ^ scale * 10 ^ scale = z.natAbs := by
  obtain ⟨f, split, length⟩ := padded_split scale z.natAbs
  have all := digits_padded (scale + 1) z.natAbs
  rw [split] at all
  have front : (padded 1 (z.natAbs / 10 ^ scale) ++ f).length - scale =
      (padded 1 (z.natAbs / 10 ^ scale)).length := by
    rw [List.length_append, length]
    omega
  refine ⟨f, ?_, (digits_append all).2, length, ?_⟩
  · rw [decimalText, if_neg positive.ne']
    dsimp only
    rw [split, front, List.take_left, List.drop_left, signText, List.append_assoc]
  · have value := natOf_append (padded 1 (z.natAbs / 10 ^ scale)) f
    rw [← split, natOf_padded, natOf_padded, length] at value
    rw [Nat.add_comm]
    exact value.symm

/-! ## As numbers -/

theorem trim_self {t : Text} (solid : ∀ c ∈ t, Mysource.isWhitespace c = false) :
    Plan.trim t = t := by
  rw [Plan.trim]
  have front : t.dropWhile Mysource.isWhitespace = t := by
    cases t with
    | nil => rfl
    | cons c t => exact List.dropWhile_cons_of_neg (by simp [solid c List.mem_cons_self])
  rw [front]
  apply List.rdropWhile_eq_self_iff.mpr
  intro some
  simp [solid _ (List.getLast_mem some)]

theorem solid_digits {t : Text} (all : digits t = true) :
    ∀ c ∈ t, Mysource.isWhitespace c = false := by
  intro c c_mem
  have bounds := (Plan.isDigit_iff c).mp (List.all_eq_true.mp all c c_mem)
  rw [Mysource.isWhitespace]
  simp only [decide_eq_false_iff_not]
  omega

theorem no_point {t : Text} (all : digits t = true) : ∀ c ∈ t, c ≠ '.' := by
  intro c c_mem same
  have isDigit := List.all_eq_true.mp all c c_mem
  rw [same] at isDigit
  exact absurd isDigit (by decide)

/-- The sign read off a text of digits. -/
theorem sign_signText {z : Int} {t : Text} {d : Char} (isDigit : d.isDigit = true) :
    Plan.sign (signText z ++ d :: t) = (decide (z < 0), d :: t) := by
  rw [signText]
  split
  case isTrue negative =>
      rw [decide_eq_true negative]
      rfl
  case isFalse nonneg =>
      rw [decide_eq_false nonneg, List.nil_append, Plan.sign]
      · rintro r ⟨rfl, -⟩
        exact absurd isDigit (by decide)
      · rintro r ⟨rfl, -⟩
        exact absurd isDigit (by decide)

theorem signed_div (z : Int) (k : ℚ) :
    Plan.signed (decide (z < 0)) (z.natAbs / k) = z / k := by
  rw [Plan.signed]
  split
  case isTrue negative =>
      rw [Nat.cast_natAbs, abs_of_neg (of_decide_eq_true negative), Int.cast_neg, neg_div, neg_neg]
  case isFalse nonneg =>
      rw [Nat.cast_natAbs, abs_of_nonneg (by simpa using nonneg)]

/-- A text in digits around a point, or without one. -/
theorem parts_of_digits {z : Int} {i f : Text} (all : digits i = true) (all' : digits f = true)
    (nonempty : i ≠ []) (point : Bool) :
    Plan.parts (signText z ++ (i ++ if point then '.' :: f else [])) =
      some ⟨decide (z < 0), i.dropWhile (· = '0'),
        (if point then f else []).rdropWhile (· = '0')⟩ := by
  obtain ⟨d, t, rfl⟩ := List.exists_cons_of_ne_nil nonempty
  have isDigit := (Plan.digits_cons all).1
  have solid : ∀ c ∈ signText z ++ (d :: t ++ if point then '.' :: f else []),
      Mysource.isWhitespace c = false := by
    intro c c_mem
    rcases List.mem_append.mp c_mem with sign | rest
    · rw [signText] at sign
      split at sign
      · rw [List.mem_singleton.mp sign]
        decide
      · cases sign
    · rcases List.mem_append.mp rest with int | frac
      · exact solid_digits all c int
      · split at frac
        · rcases List.mem_cons.mp frac with rfl | frac
          · decide
          · exact solid_digits all' c frac
        · cases frac
  have read : Plan.pointed (d :: t ++ if point then '.' :: f else []) =
      some (d :: t, if point then f else []) := by
    have parts : Plan.splitPoint (d :: t ++ if point then '.' :: f else []) =
        (d :: t, if point then f else []) := by
      have int := no_point all
      rw [Plan.splitPoint, List.takeWhile_append_of_pos (by simpa using int),
        List.dropWhile_append_of_pos (by simpa using int)]
      cases point with
      | true => simp
      | false => simp
    rw [Plan.pointed, parts]
    dsimp only
    rw [if_neg]
    rintro (⟨none, -⟩ | no | no)
    · cases none
    · rw [all] at no
      cases no
    · cases point with
      | true =>
          rw [if_pos rfl, all'] at no
          cases no
      | false => cases no
  rw [Plan.parts, trim_self solid, List.cons_append, sign_signText isDigit]
  dsimp only
  rw [← List.cons_append, read]
  rfl

/-- A cursor text in digits denotes the scaled number. -/
theorem parts_decimalText (scale : Nat) (z : Int) :
    ∃ p, Plan.parts (decimalText scale z) = some p ∧ p.value = z / 10 ^ scale := by
  by_cases whole : scale = 0
  · have nonempty : padded 1 z.natAbs ≠ [] := by
      obtain ⟨d, t, shown, -⟩ := padded_cons 1 z.natAbs (by decide)
      rw [shown]
      exact List.cons_ne_nil d t
    have read := parts_of_digits (z := z) (f := []) (digits_padded 1 z.natAbs) rfl nonempty false
    have text : decimalText scale z = signText z ++ (padded 1 z.natAbs ++ []) := by
      rw [decimalText, if_pos whole, intText, signText, List.append_nil]
    refine ⟨_, text ▸ read, ?_⟩
    rw [Parts.value, Parts.abs, Plan.natOf_dropZeros, natOf_padded, whole]
    have none : fracOf (([] : Text).rdropWhile (· = '0')) = 0 := rfl
    simp only [Bool.false_eq_true, if_false, none, add_zero]
    have value := signed_div z 1
    rw [div_one, div_one] at value
    rw [value, pow_zero, div_one]
  · obtain ⟨f, text, all, length, sum⟩ := decimalText_eq (Nat.pos_of_ne_zero whole) z
    have nonempty : padded 1 (z.natAbs / 10 ^ scale) ≠ [] := by
      obtain ⟨d, t, shown, -⟩ := padded_cons 1 (z.natAbs / 10 ^ scale) (by decide)
      rw [shown]
      exact List.cons_ne_nil d t
    have read := parts_of_digits (z := z) (digits_padded 1 _) all nonempty true
    refine ⟨_, text ▸ read, ?_⟩
    have size : ((z.natAbs / 10 ^ scale : Nat) : ℚ) + natOf f / 10 ^ scale =
        z.natAbs / 10 ^ scale := by
      rw [eq_div_iff (by positivity), add_mul, div_mul_cancel₀ _ (by positivity)]
      rw [add_comm]
      exact_mod_cast sum
    rw [Parts.value, Parts.abs, Plan.natOf_dropZeros, natOf_padded, if_pos rfl,
      Plan.fracOf_dropZeros, fracOf_eq, length, size, signed_div]

/-- Compared as numbers, cursor texts of one scale go by the number. -/
theorem xWins_decimalText (scale : Nat) (z w : Int) :
    Plan.xWins (decimalText scale z) (decimalText scale w) true = decide (w ≤ z) := by
  obtain ⟨p, read, value⟩ := parts_decimalText scale z
  obtain ⟨q, read', value'⟩ := parts_decimalText scale w
  have order : p.cmp q = compare z w := by
    rw [Parts.cmp_eq (Plan.parts_normal read) (Plan.parts_normal read'), value, value']
    have positive : (0 : ℚ) < 10 ^ scale := by positivity
    rcases lt_trichotomy z w with less | rfl | more
    · rw [compare_lt_iff_lt.mpr less, compare_lt_iff_lt]
      exact div_lt_div_of_pos_right (by exact_mod_cast less) positive
    · rw [compare_eq_iff_eq.mpr rfl, compare_eq_iff_eq.mpr rfl]
    · rw [compare_gt_iff_gt.mpr more, compare_gt_iff_gt]
      exact div_lt_div_of_pos_right (by exact_mod_cast more) positive
  rw [Plan.xWins, if_pos rfl, Plan.cmpNumericText, read, read']
  dsimp only
  rw [order, decide_eq_decide, ne_eq, compare_lt_iff_lt, not_lt]

/-! ## As texts -/

/-- The order of two scaled numbers as texts. -/
def decimalOrder (scale : Nat) (z w : Int) : Ordering :=
  if z < 0 ∧ 0 ≤ w then .lt
  else if 0 ≤ z ∧ w < 0 then .gt
  else (numeralOrder 1 (z.natAbs / 10 ^ scale) (w.natAbs / 10 ^ scale)).then
    (compare z.natAbs w.natAbs)

theorem compare_decimalText {scale : Nat} (positive : 0 < scale) (z w : Int) :
    compare (decimalText scale z) (decimalText scale w) = decimalOrder scale z w := by
  obtain ⟨f, text, all, length, sum⟩ := decimalText_eq positive z
  obtain ⟨g, text', all', length', sum'⟩ := decimalText_eq positive w
  have bodies : compare (padded 1 (z.natAbs / 10 ^ scale) ++ '.' :: f)
      (padded 1 (w.natAbs / 10 ^ scale) ++ '.' :: g) =
      (numeralOrder 1 (z.natAbs / 10 ^ scale) (w.natAbs / 10 ^ scale)).then
        (compare z.natAbs w.natAbs) := by
    rw [compare_padded (by decide)]
    by_cases same : z.natAbs / 10 ^ scale = w.natAbs / 10 ^ scale
    · rw [same, numeralOrder_eq.mpr rfl, Ordering.eq_then, Ordering.eq_then,
        Plan.compare_natOf all all' (length.trans length'.symm)]
      rw [same] at sum
      rcases lt_trichotomy (natOf f) (natOf g) with less | equal | more
      · rw [compare_lt_iff_lt.mpr less, eq_comm, compare_lt_iff_lt]
        omega
      · rw [compare_eq_iff_eq.mpr equal, eq_comm, compare_eq_iff_eq]
        omega
      · rw [compare_gt_iff_gt.mpr more, eq_comm, compare_gt_iff_gt]
        omega
    · cases order : numeralOrder 1 (z.natAbs / 10 ^ scale) (w.natAbs / 10 ^ scale) with
      | lt => rfl
      | gt => rfl
      | eq => exact absurd (numeralOrder_eq.mp order) same
  rw [text, text', decimalOrder, signText, signText]
  rcases lt_or_ge z 0 with negative | nonneg
  · rw [if_pos negative]
    rcases lt_or_ge w 0 with negative' | nonneg'
    · rw [if_pos negative', if_neg (by omega), if_neg (by omega), ← bodies, List.cons_append,
        List.cons_append, compare_cons_self]
      rfl
    · rw [if_neg (by omega), if_pos ⟨negative, nonneg'⟩]
      exact (compare_sign (by decide) 1 _ (by decide) _ _).1
  · rw [if_neg (by omega)]
    rcases lt_or_ge w 0 with negative' | nonneg'
    · rw [if_pos negative', if_neg (by omega), if_pos ⟨nonneg, negative'⟩]
      exact (compare_sign (by decide) 1 _ (by decide) _ _).2
    · rw [if_neg (by omega), if_neg (by omega), if_neg (by omega), ← bodies]
      rfl

end Apitap.Parquet
