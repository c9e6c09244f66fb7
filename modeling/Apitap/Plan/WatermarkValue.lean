import Apitap.Plan.Watermark
import Mathlib.Algebra.Order.Field.Basic
import Mathlib.Data.Nat.Cast.Order.Field
import Mathlib.Tactic.Ring

/-!
# What a watermark text denotes

A comparison of two digit texts, length first and then digit by digit, is the comparison
of the numbers they denote once the padding is gone. With the rounding this gives one
equation for `cmpNumericText`: exact where both texts are plain, through doubles elsewhere.
-/

namespace Apitap.Plan

open Foundation
open Mysource (Text isWhitespace lower)

/-! ### Comparing by a leading part -/

theorem compare_leading {m n : Nat} {k x y : ℚ} (zero : 0 ≤ x) (below : x < k) (zero' : 0 ≤ y)
    (below' : y < k) : compare (m * k + x) (n * k + y) = (compare m n).then (compare x y) := by
  have pos : 0 < k := zero.trans_lt below
  rcases lt_trichotomy m n with less | same | more
  · have step : ((m : ℚ) + 1) * k ≤ n * k :=
      mul_le_mul_of_nonneg_right (by exact_mod_cast less) pos.le
    rw [compare_lt_iff_lt.mpr less, Ordering.lt_then, compare_lt_iff_lt]
    linarith
  · rw [same, compare_eq_iff_eq.mpr rfl, Ordering.eq_then]
    rcases lt_trichotomy x y with less | same | more
    · rw [compare_lt_iff_lt.mpr less, compare_lt_iff_lt]
      linarith
    · rw [same, compare_eq_iff_eq.mpr rfl, compare_eq_iff_eq.mpr rfl]
    · rw [compare_gt_iff_gt.mpr more, compare_gt_iff_gt]
      linarith
  · have step : ((n : ℚ) + 1) * k ≤ m * k :=
      mul_le_mul_of_nonneg_right (by exact_mod_cast more) pos.le
    rw [compare_gt_iff_gt.mpr more, Ordering.gt_then, compare_gt_iff_gt]
    linarith

theorem compare_natCast (m n : Nat) : compare (m : ℚ) n = compare m n := by
  have := compare_leading (m := m) (n := n) (k := 1) le_rfl one_pos le_rfl one_pos
  rwa [mul_one, mul_one, add_zero, add_zero, compare_eq_iff_eq.mpr rfl, Ordering.then_eq] at this

theorem compare_neg (x y : ℚ) : compare (-x) (-y) = (compare x y).swap := by
  rcases lt_trichotomy x y with less | same | more
  · rw [compare_lt_iff_lt.mpr less, Ordering.swap_lt, compare_gt_iff_gt]
    exact neg_lt_neg less
  · rw [same, compare_eq_iff_eq.mpr rfl, compare_eq_iff_eq.mpr rfl, Ordering.swap_eq]
  · rw [compare_gt_iff_gt.mpr more, Ordering.swap_gt, compare_lt_iff_lt]
    exact neg_lt_neg more

theorem compare_coe (x y : ℚ) :
    compare ((x : WithTop ℚ) : Extended) ((y : WithTop ℚ) : Extended) = compare x y := by
  rcases lt_trichotomy x y with less | same | more
  · rw [compare_lt_iff_lt.mpr less, compare_lt_iff_lt]
    exact WithBot.coe_lt_coe.mpr (WithTop.coe_lt_coe.mpr less)
  · rw [same, compare_eq_iff_eq.mpr rfl, compare_eq_iff_eq.mpr rfl]
  · rw [compare_gt_iff_gt.mpr more, compare_gt_iff_gt]
    exact WithBot.coe_lt_coe.mpr (WithTop.coe_lt_coe.mpr more)

/-! ### Digits -/

theorem isDigit_iff (c : Char) : c.isDigit = true ↔ 48 ≤ c.toNat ∧ c.toNat ≤ 57 := by
  rw [Char.isDigit, Bool.and_eq_true, decide_eq_true_eq, decide_eq_true_eq]
  exact Iff.rfl

theorem digit_lt {c : Char} (isDigit : c.isDigit = true) : digit c < 10 := by
  have := (isDigit_iff c).mp isDigit
  unfold digit
  omega

theorem digit_pos {c : Char} (isDigit : c.isDigit = true) (nonzero : c ≠ '0') : 1 ≤ digit c := by
  have bounds := (isDigit_iff c).mp isDigit
  have differ : c.toNat ≠ 48 := fun same => nonzero (Char.toNat_inj.mp same)
  unfold digit
  omega

theorem compare_digit {c d : Char} (isDigit : c.isDigit = true) (isDigit' : d.isDigit = true) :
    compare c d = compare (digit c) (digit d) := by
  have bounds := (isDigit_iff c).mp isDigit
  have bounds' := (isDigit_iff d).mp isDigit'
  rcases lt_trichotomy c d with less | same | more
  · have : c.toNat < d.toNat := less
    rw [compare_lt_iff_lt.mpr less, eq_comm, compare_lt_iff_lt]
    unfold digit
    omega
  · rw [same, compare_eq_iff_eq.mpr rfl, compare_eq_iff_eq.mpr rfl]
  · have : d.toNat < c.toNat := more
    rw [compare_gt_iff_gt.mpr more, eq_comm, compare_gt_iff_gt]
    unfold digit
    omega

theorem digits_cons {c : Char} {s : Text} (all : digits (c :: s) = true) :
    c.isDigit = true ∧ digits s = true := by
  rwa [digits, List.all_cons, Bool.and_eq_true] at all

theorem foldl_digits (n : Nat) (s : Text) :
    s.foldl (fun n c => 10 * n + digit c) n = n * 10 ^ s.length + natOf s := by
  induction s generalizing n with
  | nil => rw [List.foldl_nil, natOf, List.foldl_nil, List.length_nil, pow_zero, mul_one, add_zero]
  | cons c s ih =>
      have first : natOf (c :: s) = (10 * 0 + digit c) * 10 ^ s.length + natOf s := ih _
      rw [List.foldl_cons, ih, first, List.length_cons, pow_succ]
      ring

theorem natOf_cons (c : Char) (s : Text) :
    natOf (c :: s) = digit c * 10 ^ s.length + natOf s := by
  have read : natOf (c :: s) = (10 * 0 + digit c) * 10 ^ s.length + natOf s := foldl_digits _ s
  rw [read, mul_zero, zero_add]

theorem natOf_lt {s : Text} (all : digits s = true) : natOf s < 10 ^ s.length := by
  induction s with
  | nil => exact Nat.one_pos
  | cons c s ih =>
      obtain ⟨first, rest⟩ := digits_cons all
      have small := ih rest
      have : digit c * 10 ^ s.length ≤ 9 * 10 ^ s.length :=
        Nat.mul_le_mul_right _ (by have := digit_lt first; omega)
      rw [natOf_cons, List.length_cons, pow_succ]
      omega

theorem le_natOf {c : Char} {s : Text} (isDigit : c.isDigit = true) (nonzero : c ≠ '0') :
    10 ^ s.length ≤ natOf (c :: s) := by
  have := Nat.mul_le_mul_right (10 ^ s.length) (digit_pos isDigit nonzero)
  rw [natOf_cons]
  omega

theorem natOf_dropZeros (s : Text) : natOf (s.dropWhile (· = '0')) = natOf s := by
  induction s with
  | nil => rfl
  | cons c s ih =>
      by_cases zero : c = '0'
      · rw [List.dropWhile_cons_of_pos (by simpa using zero), ih, natOf_cons, zero]
        change _ = 0 * _ + _
        rw [zero_mul, zero_add]
      · rw [List.dropWhile_cons_of_neg (by simpa using zero)]

theorem fracOf_nonneg (s : Text) : 0 ≤ fracOf s := by
  induction s with
  | nil => exact le_rfl
  | cons c s ih => exact div_nonneg (add_nonneg (Nat.cast_nonneg _) ih) (by norm_num)

theorem fracOf_cons (c : Char) (s : Text) : fracOf (c :: s) = (digit c + fracOf s) / 10 := rfl

theorem fracOf_lt {s : Text} (all : digits s = true) : fracOf s < 1 := by
  induction s with
  | nil => exact one_pos
  | cons c s ih =>
      obtain ⟨first, rest⟩ := digits_cons all
      have small := ih rest
      have : (digit c : ℚ) ≤ 9 := by exact_mod_cast Nat.le_of_lt_succ (digit_lt first)
      rw [fracOf_cons, div_lt_one (by norm_num)]
      linarith

theorem fracOf_append_zero (s : Text) : fracOf (s ++ ['0']) = fracOf s := by
  induction s with
  | nil => rw [List.nil_append, fracOf_cons, show digit '0' = 0 from rfl, fracOf]; norm_num
  | cons c s ih => rw [List.cons_append, fracOf_cons, ih, fracOf_cons]

theorem fracOf_dropZeros (s : Text) : fracOf (s.rdropWhile (· = '0')) = fracOf s := by
  induction s using List.reverseRecOn with
  | nil => rfl
  | append_singleton s c ih =>
      by_cases zero : c = '0'
      · rw [List.rdropWhile_concat_pos _ _ _ (by simpa using zero), ih, zero, fracOf_append_zero]
      · rw [List.rdropWhile_concat_neg _ _ _ (by simpa using zero)]

/-- A fraction with a digit left after the padding is not zero. -/
theorem fracOf_pos {s : Text} (all : digits s = true) (nonempty : s ≠ [])
    (padless : s.getLast? ≠ some '0') : 0 < fracOf s := by
  induction s with
  | nil => exact absurd rfl nonempty
  | cons c s ih =>
      obtain ⟨first, rest⟩ := digits_cons all
      rw [fracOf_cons]
      refine div_pos ?_ (by norm_num)
      by_cases last : s = []
      · subst last
        have : (1 : ℚ) ≤ digit c := by
          exact_mod_cast digit_pos first fun zero => padless (by rw [zero]; rfl)
        have := fracOf_nonneg []
        linarith
      · have kept : s.getLast? ≠ some '0' := by
          rwa [List.getLast?_cons_of_ne_nil last] at padless
        exact add_pos_of_nonneg_of_pos (Nat.cast_nonneg _) (ih rest last kept)

/-! ### Comparing digit texts -/

/-- Texts of one length compare as their numbers. -/
theorem compare_natOf {a b : Text} (all : digits a = true) (all' : digits b = true)
    (len : a.length = b.length) : compare a b = compare (natOf a) (natOf b) := by
  induction a generalizing b with
  | nil =>
      rw [List.length_nil, eq_comm, List.length_eq_zero_iff] at len
      rw [len]
      rfl
  | cons c a ih =>
      cases b with
      | nil => nomatch len
      | cons d b =>
          obtain ⟨first, rest⟩ := digits_cons all
          obtain ⟨first', rest'⟩ := digits_cons all'
          have len : a.length = b.length := Nat.succ.inj len
          rw [List.compare_cons_cons, ih rest rest' len, compare_digit first first',
            ← compare_natCast (natOf (c :: a)), natOf_cons, natOf_cons, len]
          have small : ((natOf a : ℕ) : ℚ) < 10 ^ b.length := by
            have := natOf_lt rest
            rw [len] at this
            exact_mod_cast this
          have small' : ((natOf b : ℕ) : ℚ) < 10 ^ b.length := by exact_mod_cast natOf_lt rest'
          push_cast
          rw [compare_leading (Nat.cast_nonneg _) small (Nat.cast_nonneg _) small', compare_natCast]

/-- Without leading zeros the longer text is the larger number. -/
theorem compare_int {a b : Text} (all : digits a = true) (all' : digits b = true)
    (padless : a.head? ≠ some '0') (padless' : b.head? ≠ some '0') :
    (compare a.length b.length).then (compare a b) = compare (natOf a) (natOf b) := by
  have shorter : ∀ {a b : Text}, digits a = true → digits b = true → b.head? ≠ some '0' →
      a.length < b.length → natOf a < natOf b := by
    intro a b all all' padless less
    cases b with
    | nil => exact absurd less (Nat.not_lt_zero _)
    | cons c b =>
        have nonzero : c ≠ '0' := fun zero => padless (by rw [zero]; rfl)
        calc natOf a < 10 ^ a.length := natOf_lt all
          _ ≤ 10 ^ b.length := Nat.pow_le_pow_right (by omega) (Nat.le_of_lt_succ less)
          _ ≤ natOf (c :: b) := le_natOf (digits_cons all').1 nonzero
  rcases lt_trichotomy a.length b.length with less | same | more
  · rw [compare_lt_iff_lt.mpr less, Ordering.lt_then,
      compare_lt_iff_lt.mpr (shorter all all' padless' less)]
  · rw [compare_eq_iff_eq.mpr same, Ordering.eq_then, compare_natOf all all' same]
  · rw [compare_gt_iff_gt.mpr more, Ordering.gt_then,
      compare_gt_iff_gt.mpr (shorter all' all padless more)]

/-- Without trailing zeros fractions compare as texts. -/
theorem compare_frac {a b : Text} (all : digits a = true) (all' : digits b = true)
    (padless : a.getLast? ≠ some '0') (padless' : b.getLast? ≠ some '0') :
    compare a b = compare (fracOf a) (fracOf b) := by
  induction a generalizing b with
  | nil =>
      cases b with
      | nil => rw [List.compare_nil_nil, compare_eq_iff_eq.mpr rfl]
      | cons d b =>
          rw [List.compare_nil_cons, eq_comm, compare_lt_iff_lt]
          exact fracOf_pos all' (List.cons_ne_nil d b) padless'
  | cons c a ih =>
      cases b with
      | nil =>
          rw [List.compare_cons_nil, eq_comm, compare_gt_iff_gt]
          exact fracOf_pos all (List.cons_ne_nil c a) padless
      | cons d b =>
          obtain ⟨first, rest⟩ := digits_cons all
          obtain ⟨first', rest'⟩ := digits_cons all'
          have tail : ∀ {c : Char} {s : Text}, (c :: s).getLast? ≠ some '0' →
              s.getLast? ≠ some '0' := by
            intro c s padless
            cases s with
            | nil => nofun
            | cons e s => rwa [List.getLast?_cons_cons] at padless
          have scaled : ∀ x y : ℚ, compare (x / 10) (y / 10) = compare x y := by
            intro x y
            rcases lt_trichotomy x y with less | same | more
            · rw [compare_lt_iff_lt.mpr less, compare_lt_iff_lt]
              linarith
            · rw [same, compare_eq_iff_eq.mpr rfl, compare_eq_iff_eq.mpr rfl]
            · rw [compare_gt_iff_gt.mpr more, compare_gt_iff_gt]
              linarith
          rw [List.compare_cons_cons, ih rest rest' (tail padless) (tail padless'),
            compare_digit first first', fracOf_cons, fracOf_cons, scaled]
          have := compare_leading (m := digit c) (n := digit d) (k := 1) (fracOf_nonneg a)
            (fracOf_lt rest) (fracOf_nonneg b) (fracOf_lt rest')
          rw [mul_one, mul_one] at this
          exact this.symm

/-! ### Plain texts -/

/-- Parts as `parts` leaves them: digits without padding. -/
structure Parts.Normal (p : Parts) : Prop where
  int : digits p.int = true
  frac : digits p.frac = true
  intPadless : p.int.head? ≠ some '0'
  fracPadless : p.frac.getLast? ≠ some '0'

/-- The number without its sign. -/
def Parts.abs (p : Parts) : ℚ := natOf p.int + fracOf p.frac

def Parts.value (p : Parts) : ℚ := signed p.neg p.abs

theorem Parts.abs_nonneg (p : Parts) : 0 ≤ p.abs :=
  add_nonneg (Nat.cast_nonneg _) (fracOf_nonneg _)

theorem Parts.mag_eq {p q : Parts} (normal : p.Normal) (normal' : q.Normal) :
    p.mag q = compare p.abs q.abs := by
  have leading := compare_leading (m := natOf p.int) (n := natOf q.int) (k := 1)
    (fracOf_nonneg p.frac) (fracOf_lt normal.frac) (fracOf_nonneg q.frac) (fracOf_lt normal'.frac)
  rw [mul_one, mul_one] at leading
  rw [Parts.mag, compare_int normal.int normal'.int normal.intPadless normal'.intPadless,
    compare_frac normal.frac normal'.frac normal.fracPadless normal'.fracPadless, Parts.abs,
    Parts.abs, leading]

theorem Parts.zero_iff {p : Parts} (normal : p.Normal) : p.zero = true ↔ p.abs = 0 := by
  rw [Parts.zero, Bool.and_eq_true, List.isEmpty_iff, List.isEmpty_iff]
  constructor
  · rintro ⟨int, frac⟩
    rw [Parts.abs, int, frac]
    exact add_zero _
  · intro zero
    have frac : p.frac = [] := by
      by_contra nonempty
      have pos := fracOf_pos normal.frac nonempty normal.fracPadless
      have : (0 : ℚ) ≤ natOf p.int := Nat.cast_nonneg _
      rw [Parts.abs] at zero
      linarith
    refine ⟨?_, frac⟩
    by_contra nonempty
    obtain ⟨c, s, split⟩ := List.exists_cons_of_ne_nil nonempty
    have nonzero : c ≠ '0' := fun zero => normal.intPadless (by rw [split, zero]; rfl)
    have all := normal.int
    rw [split] at all
    have one : 1 ≤ natOf (c :: s) :=
      (Nat.one_le_pow _ _ (by omega)).trans (le_natOf (digits_cons all).1 nonzero)
    have : (1 : ℚ) ≤ natOf p.int := by rw [split]; exact_mod_cast one
    have := fracOf_nonneg p.frac
    rw [Parts.abs] at zero
    linarith

theorem Parts.negative_iff {p : Parts} (normal : p.Normal) : p.negative = true ↔ p.value < 0 := by
  have nonneg := p.abs_nonneg
  have zero := Parts.zero_iff normal
  rw [Parts.negative, Parts.value, signed]
  cases p.neg with
  | false => simpa using nonneg
  | true =>
      rw [Bool.true_and, Bool.not_eq_true', ← Bool.not_eq_true, zero, if_pos rfl, neg_lt_zero]
      exact ⟨fun nonzero => nonneg.lt_of_ne' nonzero, fun pos => pos.ne'⟩

theorem Parts.value_of_negative {p : Parts} (negative : p.negative = true) :
    p.value = -p.abs := by
  rw [Parts.negative, Bool.and_eq_true] at negative
  rw [Parts.value, signed, if_pos negative.1]

theorem Parts.value_of_not_negative {p : Parts} (normal : p.Normal)
    (nonneg : p.negative = false) : p.value = p.abs := by
  rw [Parts.value, signed]
  split
  · rename_i neg
    rw [Parts.negative, neg, Bool.true_and, Bool.not_eq_false'] at nonneg
    rw [(Parts.zero_iff normal).mp nonneg, neg_zero]
  · rfl

/-- Two plain texts compare as their numbers. -/
theorem Parts.cmp_eq {p q : Parts} (normal : p.Normal) (normal' : q.Normal) :
    p.cmp q = compare p.value q.value := by
  have below := Parts.negative_iff normal
  have below' := Parts.negative_iff normal'
  rw [Parts.cmp, Parts.mag_eq normal normal']
  cases negative : p.negative <;> cases negative' : q.negative <;>
    rw [negative] at below <;> rw [negative'] at below'
  · rw [Parts.value_of_not_negative normal negative, Parts.value_of_not_negative normal' negative']
    rfl
  · have neg : q.value < 0 := below'.mp rfl
    have nonneg : ¬p.value < 0 := fun neg => Bool.noConfusion (below.mpr neg)
    exact (compare_gt_iff_gt.mpr (neg.trans_le (not_lt.mp nonneg))).symm
  · have neg : p.value < 0 := below.mp rfl
    have nonneg : ¬q.value < 0 := fun neg => Bool.noConfusion (below'.mpr neg)
    exact (compare_lt_iff_lt.mpr (neg.trans_le (not_lt.mp nonneg))).symm
  · rw [Parts.value_of_negative negative, Parts.value_of_negative negative', compare_neg]
    rfl

theorem digits_of_sublist {s t : Text} (sub : s.Sublist t) (all : digits t = true) :
    digits s = true :=
  List.all_eq_true.mpr fun c mem => List.all_eq_true.mp all c (sub.subset mem)

theorem pointed_spec {s i f : Text} (read : pointed s = some (i, f)) :
    digits i = true ∧ digits f = true ∧ ∀ c ∈ s, c.isDigit = true ∨ c = '.' := by
  rw [pointed, splitPoint] at read
  dsimp only at read
  split at read
  · nomatch read
  · rename_i fine
    rw [not_or, not_or, Bool.not_eq_false, Bool.not_eq_false] at fine
    obtain ⟨-, int, frac⟩ := fine
    obtain ⟨rfl, rfl⟩ := Prod.mk.inj (Option.some.inj read)
    refine ⟨int, frac, fun c mem => ?_⟩
    rw [← List.takeWhile_append_dropWhile (p := (· ≠ '.')) (l := s), List.mem_append] at mem
    cases mem with
    | inl before => exact Or.inl (List.all_eq_true.mp int c before)
    | inr after =>
        cases rest : s.dropWhile (· ≠ '.') with
        | nil =>
            rw [rest] at after
            nomatch after
        | cons d t =>
            rw [rest] at frac after
            cases List.mem_cons.mp after with
            | inr tail => exact Or.inl (List.all_eq_true.mp frac c tail)
            | inl here =>
                have stop : d = '.' := by
                  have := List.head?_dropWhile_not (· ≠ '.') s
                  rw [rest] at this
                  simpa using this
                exact Or.inr (here.trans stop)

theorem head?_dropZeros (s : Text) : (s.dropWhile (· = '0')).head? ≠ some '0' := by
  intro zero
  have nonempty : s.dropWhile (· = '0') ≠ [] := fun empty => by
    rw [empty] at zero
    nomatch zero
  have := List.head_dropWhile_not (p := (· = '0')) (l := s) nonempty
  rw [List.head?_eq_some_head nonempty] at zero
  simp [Option.some.inj zero] at this

theorem getLast?_dropZeros (s : Text) : (s.rdropWhile (· = '0')).getLast? ≠ some '0' := by
  intro zero
  have nonempty : s.rdropWhile (· = '0') ≠ [] := fun empty => by
    rw [empty] at zero
    nomatch zero
  have := List.rdropWhile_last_not (p := (· = '0')) s nonempty
  rw [List.getLast?_eq_some_getLast nonempty] at zero
  simp [Option.some.inj zero] at this

theorem parts_spec {s : Text} {p : Parts} (exact : parts s = some p) :
    ∃ i f, pointed (sign (trim s)).2 = some (i, f) ∧
      p = ⟨(sign (trim s)).1, i.dropWhile (· = '0'), f.rdropWhile (· = '0')⟩ := by
  obtain ⟨⟨i, f⟩, read, same⟩ := Option.map_eq_some_iff.mp exact
  exact ⟨i, f, read, same.symm⟩

theorem parts_normal {s : Text} {p : Parts} (exact : parts s = some p) : p.Normal := by
  obtain ⟨i, f, read, rfl⟩ := parts_spec exact
  obtain ⟨int, frac, -⟩ := pointed_spec read
  exact ⟨digits_of_sublist (List.dropWhile_sublist _) int,
    digits_of_sublist (List.rdropWhile_prefix _ _).sublist frac,
    head?_dropZeros i, getLast?_dropZeros f⟩

/-- The number a watermark text denotes, an infinity for the words `f64` reads as one. -/
def reading (s : Text) : Option Extended := (literal (trim s)).bind Literal.value

/-- A text compared digit by digit: no exponent, no word. -/
def plain (s : Text) : Bool := (parts s).isSome

theorem toLower_of_pointed {c : Char} (kind : c.isDigit = true ∨ c = '.') : c.toLower = c := by
  refine dif_neg fun upper => ?_
  cases kind with
  | inl isDigit =>
      have := (isDigit_iff c).mp isDigit
      have : 65 ≤ c.toNat := upper.1
      omega
  | inr point =>
      rw [point] at upper
      exact absurd upper.1 (by decide)

/-- A word has a letter at its start, a number's text has none. -/
theorem not_word {s : Text} (kind : ∀ c ∈ s, c.isDigit = true ∨ c = '.') {w : Char} {ws : Text}
    (letter : ¬(w.isDigit = true ∨ w = '.')) : lower s ≠ w :: ws := by
  intro word
  cases s with
  | nil => nomatch word
  | cons c s =>
      have first : c.toLower = w := (List.cons.inj word).1
      rw [toLower_of_pointed (kind c List.mem_cons_self)] at first
      exact letter (first ▸ kind c List.mem_cons_self)

theorem literal_of_parts {s : Text} {i f : Text} (read : pointed (sign s).2 = some (i, f)) :
    literal s = some (.number (sign s).1 i f 0) := by
  obtain ⟨-, -, kind⟩ := pointed_spec read
  have noExponent : (sign s).2.dropWhile (fun c => ¬(c = 'e' ∨ c = 'E')) = [] := by
    rw [List.dropWhile_eq_nil_iff]
    intro c mem
    rw [decide_eq_true_eq]
    rintro (lower | upper)
    · rw [lower] at mem
      exact absurd (kind _ mem) (by decide)
    · rw [upper] at mem
      exact absurd (kind _ mem) (by decide)
  have words : ¬(lower (sign s).2 = "inf".toList ∨ lower (sign s).2 = "infinity".toList) :=
    not_or.mpr ⟨not_word kind (by decide), not_word kind (by decide)⟩
  have nan : lower (sign s).2 ≠ "nan".toList := not_word kind (by decide)
  rw [literal]
  dsimp only
  rw [if_neg words, if_neg nan, number]
  dsimp only
  rw [noExponent]
  dsimp only
  rw [read]
  rfl

theorem reading_of_parts {s : Text} {p : Parts} (exact : parts s = some p) :
    reading s = some ((p.value : WithTop ℚ) : Extended) := by
  obtain ⟨i, f, read, rfl⟩ := parts_spec exact
  rw [reading, literal_of_parts read, Option.bind_some, Literal.value, Parts.value, Parts.abs,
    natOf_dropZeros, fracOf_dropZeros, zpow_zero, mul_one]

theorem partialCmp_f64 (a b : Text) :
    ((literal (trim a)).bind fun x => (literal (trim b)).bind fun y => partialCmp x.f64 y.f64) =
      (reading a).bind fun x => (reading b).map fun y =>
        compare x.toBinary64 y.toBinary64 := by
  rw [reading, reading]
  cases literal (trim a) with
  | none => rfl
  | some x =>
      cases literal (trim b) with
      | none =>
          change none = x.value.bind fun _ => none
          cases x.value <;> rfl
      | some y =>
          change partialCmp (x.value.map _) (y.value.map _) =
            x.value.bind fun x => y.value.map _
          cases x.value <;> cases y.value <;> rfl

/-- Two plain texts compare as their numbers, any other two as their doubles. -/
theorem cmpNumericText_eq (a b : Text) : cmpNumericText a b =
    (reading a).bind fun x => (reading b).map fun y =>
      if plain a && plain b then compare x y else compare x.toBinary64 y.toBinary64 := by
  rw [cmpNumericText, partialCmp_f64, plain, plain]
  cases exact : parts a with
  | none => rfl
  | some p =>
      cases exact' : parts b with
      | none => rfl
      | some q =>
          rw [reading_of_parts exact, reading_of_parts exact']
          change some (p.cmp q) = some (compare _ _)
          rw [Parts.cmp_eq (parts_normal exact) (parts_normal exact'), compare_coe]

end Apitap.Plan
