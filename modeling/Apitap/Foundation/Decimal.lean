import Apitap.Foundation.Radix
import Mathlib.Data.Nat.Digits.Defs
import Mathlib.Data.Rat.Defs
import Mathlib.Algebra.Order.Field.Basic

/-!
# Decimal text

A sign, integer digits, and a point with fraction digits where there are any, as ASCII
bytes. Integer digits are plain when no zero stands before another digit; a number is shown
by its plain digits, and any digits of it lead to them.
-/

namespace Apitap.Foundation

namespace Decimal

/-- Digits without the zeros before the first other one; a single zero for none. -/
def plain (ds : List Nat) : List Nat :=
  match ds.dropWhile (· == 0) with
  | [] => [0]
  | e :: es => e :: es

/-- A number's digits as a formatter shows them. -/
def itoa (n : Nat) : List Nat := if n = 0 then [0] else (Nat.digits 10 n).reverse

def ascii (ds : List Nat) : List UInt8 := ds.map fun d => UInt8.ofNat (48 + d)

/-- A sign, digits, and a point before the fraction where there is one. -/
def text (neg : Bool) (int frac : List Nat) : List UInt8 :=
  (if neg then [45] else []) ++ ascii int ++ if frac = [] then [] else 46 :: ascii frac

/-- A signed number's digits. -/
def itoaInt (z : Int) : List UInt8 := (if z < 0 then [45] else []) ++ ascii (itoa z.natAbs)

/-- The shortest decimal text of a float given by its bits. -/
structure Floats where
  single : Nat → List UInt8
  double : Nat → List UInt8

variable {u v ds : List Nat}

/-! ## Plain digits -/

@[simp] theorem plain_nil : plain [] = [0] := rfl

@[simp] theorem plain_zero_cons : plain (0 :: ds) = plain ds := rfl

theorem plain_cons {d : Nat} (nonzero : d ≠ 0) : plain (d :: ds) = d :: ds := by
  rw [plain, List.dropWhile_cons_of_neg (by simpa using nonzero)]

theorem plain_ne_nil : plain ds ≠ [] := by
  rw [plain]
  split
  · exact List.cons_ne_nil _ _
  · exact List.cons_ne_nil _ _

theorem plain_zeros_append (n : Nat) : plain (List.replicate n 0 ++ ds) = plain ds := by
  induction n with
  | zero => rfl
  | succ n ih => exact ih

/-- A zero stands first only alone. -/
theorem length_plain_of_head (zero : (plain ds).head? = some 0) : (plain ds).length = 1 := by
  induction ds with
  | nil => rfl
  | cons d ds ih =>
      by_cases nonzero : d = 0
      · subst nonzero
        exact ih zero
      · rw [plain_cons nonzero] at zero
        exact absurd (Option.some.inj zero) nonzero

/-- Digits are their plain ones after some zeros, or zeros alone. -/
theorem exists_zeros (ds : List Nat) :
    (∃ n, ds = List.replicate n 0) ∨ ∃ n, ds = List.replicate n 0 ++ plain ds := by
  induction ds with
  | nil => exact .inl ⟨0, rfl⟩
  | cons d ds ih =>
      by_cases nonzero : d = 0
      · subst nonzero
        rcases ih with ⟨n, zeros⟩ | ⟨n, front⟩
        · exact .inl ⟨n + 1, congrArg (0 :: ·) zeros⟩
        · exact .inr ⟨n + 1, congrArg (0 :: ·) front⟩
      · exact .inr ⟨0, (plain_cons nonzero).symm⟩

theorem plain_replicate (n : Nat) : plain (List.replicate n 0) = [0] := by
  rw [← List.append_nil (List.replicate n 0), plain_zeros_append, plain_nil]

theorem value_replicate (b n : Nat) : Radix.value b (List.replicate n 0) = 0 := by
  induction n with
  | zero => rfl
  | succ n ih => rw [List.replicate_succ, Radix.value_cons, ih, Nat.zero_mul]

theorem value_zeros_append (b n : Nat) :
    Radix.value b (List.replicate n 0 ++ ds) = Radix.value b ds := by
  rw [Radix.value_append, value_replicate, Nat.zero_mul, Nat.zero_add]

theorem value_plain (b : Nat) (ds : List Nat) :
    Radix.value b (plain ds) = Radix.value b ds := by
  rcases exists_zeros ds with ⟨n, rfl⟩ | ⟨n, front⟩
  · rw [plain_replicate, value_replicate, Radix.value_singleton]
  · calc Radix.value b (plain ds)
        _ = Radix.value b (List.replicate n 0 ++ plain ds) := (value_zeros_append b n).symm
        _ = Radix.value b ds := by rw [← front]

theorem plain_lt {b : Nat} (base : 0 < b) (within : ∀ d ∈ ds, d < b) : ∀ d ∈ plain ds, d < b := by
  rcases exists_zeros ds with ⟨n, rfl⟩ | ⟨n, front⟩
  · rw [plain_replicate]
    intro d d_mem
    rw [List.mem_singleton.mp d_mem]
    exact base
  · intro d d_mem
    refine within d ?_
    rw [front]
    exact List.mem_append_right _ d_mem

/-- Digits after ones that are not all zeros stay. -/
theorem plain_append (nonzero : ∃ d ∈ u, d ≠ 0) : plain (u ++ v) = plain u ++ v := by
  obtain ⟨d, d_mem, nonzero⟩ := nonzero
  induction u with
  | nil => cases d_mem
  | cons e u ih =>
      by_cases zero : e = 0
      · subst zero
        rcases List.mem_cons.mp d_mem with rfl | d_mem
        · exact absurd rfl nonzero
        · exact ih d_mem
      · rw [List.cons_append, plain_cons zero, plain_cons zero, List.cons_append]

/-! ## A number's digits -/

theorem digits_ne_zero {w n : Nat} (fits : n < 10 ^ w) (nonzero : n ≠ 0) :
    ∃ d ∈ Radix.digits 10 w n, d ≠ 0 := by
  by_contra none
  push Not at none
  have zeros : Radix.digits 10 w n = List.replicate w 0 :=
    List.eq_replicate_iff.mpr ⟨Radix.length_digits, none⟩
  have value := Radix.value_digits_of_lt fits
  rw [zeros, value_replicate] at value
  exact nonzero value.symm

theorem digits_zero (b w : Nat) : Radix.digits b w 0 = List.replicate w 0 := by
  induction w with
  | zero => rfl
  | succ w ih => rw [Radix.digits, Nat.zero_div, ih, Nat.zero_mod, List.replicate_succ']

theorem itoa_of_lt {n : Nat} (small : n < 10) : itoa n = [n] := by
  rw [itoa]
  split
  case isTrue zero => rw [zero]
  case isFalse nonzero => rw [Nat.digits_of_lt 10 n nonzero small, List.reverse_singleton]

theorem itoa_step {n : Nat} (large : 10 ≤ n) : itoa n = itoa (n / 10) ++ [n % 10] := by
  have more : n / 10 ≠ 0 := by omega
  rw [itoa, if_neg (by omega), itoa, if_neg more,
    Nat.digits_eq_cons_digits_div (by decide) (by omega),
    List.reverse_cons]

/-- Any digits of a number lead to the ones shown. -/
theorem plain_digits {w n : Nat} (fits : n < 10 ^ w) : plain (Radix.digits 10 w n) = itoa n := by
  induction w generalizing n with
  | zero =>
      obtain rfl : n = 0 := Nat.lt_one_iff.mp fits
      rfl
  | succ w ih =>
      have front : n / 10 < 10 ^ w := Nat.div_lt_of_lt_mul (by rwa [Nat.pow_succ'] at fits)
      rw [Radix.digits]
      by_cases small : n < 10
      · rw [Nat.div_eq_of_lt small, digits_zero, plain_zeros_append, Nat.mod_eq_of_lt small,
          itoa_of_lt small]
        by_cases zero : n = 0
        · subst zero
          rfl
        · exact plain_cons zero
      · rw [plain_append (digits_ne_zero front (by omega)), ih front, ← itoa_step (by omega)]

theorem value_itoa (n : Nat) : Radix.value 10 (itoa n) = n := by
  rw [← plain_digits (Nat.lt_pow_self (by decide)), value_plain,
    Radix.value_digits_of_lt (Nat.lt_pow_self (by decide))]

theorem itoa_lt (n : Nat) : ∀ d ∈ itoa n, d < 10 := by
  rw [← plain_digits (Nat.lt_pow_self (by decide))]
  exact plain_lt (by decide) (Radix.digits_lt (by decide))

/-! ## What a text denotes -/

/-- A text's digits around its point. -/
def read (t : List UInt8) : ℚ :=
  let neg := t.head? = some 45
  let rest := if neg then t.tail else t
  let int := rest.takeWhile (· != 46)
  let frac := (rest.dropWhile (· != 46)).tail
  (if neg then -1 else 1) * Radix.value 10 ((int ++ frac).map fun b => b.toNat - 48) /
    10 ^ frac.length

/-- A text of a value with a number of fraction digits and no zero before another integer
digit. -/
def Denotes (t : List UInt8) (scale : Nat) (v : ℚ) : Prop :=
  read t = v ∧ ∃ neg int frac, t = text neg int frac ∧ (∀ d ∈ int ++ frac, d < 10) ∧
    int ≠ [] ∧ (int.head? = some 0 → int.length = 1) ∧ frac.length = scale

theorem ascii_append : ascii (u ++ v) = ascii u ++ ascii v := List.map_append

@[simp] theorem length_ascii : (ascii ds).length = ds.length := List.length_map _

theorem toNat_ascii {d : Nat} (small : d < 10) : (UInt8.ofNat (48 + d)).toNat = 48 + d :=
  UInt8.toNat_ofNat_of_lt (show 48 + d < 256 by omega)

/-- A digit is not another byte. -/
theorem ne_of_mem_ascii {b c : UInt8} (within : ∀ d ∈ ds, d < 10) (b_mem : b ∈ ascii ds)
    (other : c.toNat < 48 ∨ 57 < c.toNat) : b ≠ c := by
  obtain ⟨d, d_mem, rfl⟩ := List.mem_map.mp b_mem
  intro same
  have code := toNat_ascii (within d d_mem)
  have small := within d d_mem
  rw [same] at code
  omega

theorem map_ascii (within : ∀ d ∈ ds, d < 10) : ((ascii ds).map fun b => b.toNat - 48) = ds := by
  rw [ascii, List.map_map]
  refine (List.map_congr_left fun d d_mem => ?_).trans (List.map_id ds)
  show (UInt8.ofNat (48 + d)).toNat - 48 = d
  rw [toNat_ascii (within d d_mem)]
  omega

theorem read_text {neg : Bool} {int frac : List Nat} (within : ∀ d ∈ int ++ frac, d < 10)
    (some_int : int ≠ []) :
    read (text neg int frac) =
      (if neg then -1 else 1) * Radix.value 10 (int ++ frac) / 10 ^ frac.length := by
  have int_lt : ∀ d ∈ int, d < 10 := fun d d_mem => within d (List.mem_append_left _ d_mem)
  have frac_lt : ∀ d ∈ frac, d < 10 := fun d d_mem => within d (List.mem_append_right _ d_mem)
  obtain ⟨tail, tail_is⟩ : ∃ tail, (if frac = [] then [] else 46 :: ascii frac) = tail := ⟨_, rfl⟩
  have digits : (ascii int ++ tail).takeWhile (· != 46) = ascii int ∧
      ((ascii int ++ tail).dropWhile (· != 46)).tail = ascii frac := by
    have plain : ∀ b ∈ ascii int, (b != 46) = true := fun b b_mem =>
      bne_iff_ne.mpr (ne_of_mem_ascii int_lt b_mem (.inl (by decide)))
    rw [List.takeWhile_append_of_pos plain, List.dropWhile_append_of_pos plain, ← tail_is]
    split
    case isTrue none =>
        subst none
        simp [ascii]
    case isFalse => simp
  have first : (ascii int ++ tail).head? ≠ some 45 := by
    obtain ⟨d, rest, rfl⟩ := List.exists_cons_of_ne_nil some_int
    intro minus
    exact ne_of_mem_ascii int_lt List.mem_cons_self (.inl (by decide)) (Option.some.inj minus)
  have shown : text neg int frac = (if neg then [45] else []) ++ (ascii int ++ tail) := by
    rw [text, tail_is, List.append_assoc]
  cases neg with
  | true =>
      rw [shown, read]
      simp only [if_true, List.cons_append, List.nil_append, List.head?_cons,
        List.tail_cons, digits]
      rw [← ascii_append, map_ascii within, length_ascii]
  | false =>
      rw [shown, read]
      simp only [Bool.false_eq_true, if_false, List.nil_append, first, digits]
      rw [← ascii_append, map_ascii within, length_ascii]

end Decimal

end Apitap.Foundation
