import Apitap.Foundation.Champion
import Apitap.Wire.CursorDecimal
import Apitap.Wire.ParquetDecimal
import Apitap.Wire.ParquetRows

/-!
# Cursor values and their texts

The finite values a cursor's column can hold, as whole numbers of the type's own unit: the
integer, the scaled integer of a decimal, days or microseconds from 2000-01-01. What a field
renders as depends on its number alone, and which of two texts wins is a matter of numbers: of
the values, of the years as they are written, of the integer parts as they are written.
-/

namespace Apitap.Parquet

open Foundation
open Champion (RankedBy)
open Calendar (civil)
open Mysource (Text)
open Copy (Numeric fromBeInt numericToScaledI128 checkedPow pgEpochDays pgEpochMicros)
open Plan (xWins atLeast)

/-- A field that holds a finite value of a cursor's type. -/
def Denotes : Delivered → Bytes → Int → Prop
  | .int .., f, n => ∃ w, (w = 2 ∨ w = 4 ∨ w = 8) ∧ Fits (8 * w) n ∧ f = beInt w n
  | .date, f, n => Fits 32 n ∧ n ≠ 2 ^ 31 - 1 ∧ n ≠ -2 ^ 31 ∧ f = beInt 4 n
  | .dateTime _, f, n => Fits 64 n ∧ n ≠ 2 ^ 63 - 1 ∧ n ≠ -2 ^ 63 ∧ f = beInt 8 n
  | .decimal _ s, f, n => ∃ x : Numeric, f = x.bytes ∧ (n : ℚ) = x.value * 10 ^ s
  | _, _, _ => False

structure Held (d : Delivered) where
  field : Bytes
  number : Int
  denotes : Denotes d field number

/-- The text of a value. -/
def cursorText : Delivered → Int → Text
  | .int .., n => intText n
  | .date, n => dateText (civil (n + pgEpochDays))
  | .dateTime utc, n => tsText (n + pgEpochMicros) utc
  | .decimal _ s, n => decimalText s n
  | _, _ => []

theorem length_beInt (w : Nat) (z : Int) : (beInt w z).length = w := Copy.length_be

theorem sized_self {n : Nat} {what : String} {f : Bytes} (length : f.length = n) :
    sized n what f = .ok f := if_pos length

theorem fromBeInt_field {w : Nat} {n : Int} (positive : 0 < w) (fits : Fits (8 * w) n) :
    fromBeInt (beInt w n) = n := fromBeInt_beInt positive fits

theorem width_positive {w : Nat} (is : w = 2 ∨ w = 4 ∨ w = 8) : 0 < w := by omega

theorem renderDateDays_ok {chrono : Chrono} {days : Int} {t : Text}
    (rendered : renderDateDays chrono days = .ok t) : t = dateText (civil days) := by
  obtain ⟨secs, is, shown⟩ := bind_eq_ok.mp rendered
  have product : secs = days * 86400 := by
    rw [checked] at is
    split at is
    · exact (Except.ok.inj is).symm
    · cases is
  have day : secs / 86400 = days := by
    rw [product]
    exact Int.mul_ediv_cancel _ (by decide)
  rw [day] at shown
  split at shown
  · rename_i holds
    rw [← chrono.date_eq days holds]
    exact (Except.ok.inj shown).symm
  · cases shown

theorem renderTsMicros_ok {chrono : Chrono} {us : Int} {utc : Bool} {t : Text}
    (rendered : renderTsMicros chrono us utc = .ok t) : t = tsText us utc := by
  rw [renderTsMicros] at rendered
  split at rendered
  · rename_i holds
    rw [← Except.ok.inj rendered, chrono.stamp_eq _ holds, stampText, tsText, zone]
    simp only [List.append_assoc, List.cons_append]
  · cases rendered

/-- What a field renders as depends on its number alone. -/
theorem renderCursor_denotes {d : Delivered} {f : Bytes} {n : Int} (denotes : Denotes d f n)
    {chrono : Chrono} {t : Text} (rendered : renderCursor chrono d f = .ok t) :
    t = cursorText d n := by
  cases d with
  | int w unsigned =>
      obtain ⟨w, is, fits, rfl⟩ := denotes
      rw [renderCursor, length_beInt, if_pos is, fromBeInt_field (width_positive is) fits]
        at rendered
      exact (Except.ok.inj rendered).symm
  | date =>
      obtain ⟨fits, -, -, rfl⟩ := denotes
      rw [renderCursor.eq_def] at rendered
      dsimp only at rendered
      rw [sized_self (length_beInt 4 n), Stop.ok_bind, fromBeInt_field (by decide) fits] at rendered
      exact renderDateDays_ok rendered
  | dateTime utc =>
      obtain ⟨fits, -, -, rfl⟩ := denotes
      rw [renderCursor.eq_def] at rendered
      dsimp only at rendered
      rw [sized_self (length_beInt 8 n), Stop.ok_bind, fromBeInt_field (by decide) fits] at rendered
      obtain ⟨us, is, shown⟩ := bind_eq_ok.mp rendered
      obtain rfl : us = n + pgEpochMicros := by
        rw [checked] at is
        split at is
        · exact (Except.ok.inj is).symm
        · cases is
      exact renderTsMicros_ok shown
  | decimal p s =>
      obtain ⟨x, rfl, exact_⟩ := denotes
      obtain ⟨m, read, rfl⟩ := map_eq_ok.mp rendered
      rw [scaled_exact read exact_]
      rfl
  | _ => exact denotes.elim

/-- Where a type's values are counted from. -/
def shift : Delivered → Int
  | .date => pgEpochDays
  | .dateTime _ => pgEpochMicros
  | _ => 0

/-- What the builder keeps of a value. -/
def stored : Delivered → Int → Value
  | .decimal .., n => .bytes (beInt 16 n)
  | d, n => .int (n + shift d)

/-- A kept value's number. -/
def unstored (d : Delivered) : Value → Int
  | .int z => z - shift d
  | .bytes b => fromBeInt b
  | _ => 0

/-- A decimal has no digit behind the point. -/
def Whole (d : Delivered) : Prop := ∀ p s, d = .decimal p s → s = 0

theorem clampPrecision_pos (p : Nat) : 0 < clampPrecision p := by
  rw [clampPrecision]
  split <;> omega

/-- What a field is kept as depends on its number alone. -/
theorem decoded_denotes {d : Delivered} {f : Bytes} {n : Int} (denotes : Denotes d f n)
    (whole : Whole d) {x : Option Value} (is : decoded d f = .ok x) :
    x = some (stored d n) ∧ unstored d (stored d n) = n := by
  obtain ⟨r, pushed, rfl⟩ := map_eq_ok.mp is
  cases d with
  | int w unsigned =>
      obtain ⟨w, wide, fits, rfl⟩ := denotes
      rw [ColBuf.new, ColBuf.pushPg, length_beInt, if_pos wide,
        fromBeInt_field (width_positive wide) fits] at pushed
      cases pushed
      refine ⟨?_, Int.add_sub_cancel n _⟩
      show some (Value.int n) = some (Value.int (n + 0))
      rw [Int.add_zero]
  | date =>
      obtain ⟨fits, low, high, rfl⟩ := denotes
      rw [ColBuf.new, ColBuf.pushPg, sized_self (length_beInt 4 n), Stop.ok_bind,
        fromBeInt_field (by decide) fits] at pushed
      dsimp only at pushed
      rw [if_neg (by rintro (a | b) <;> contradiction)] at pushed
      by_cases room : Fits 32 (n + pgEpochDays)
      · rw [checked_of_fits room] at pushed
        cases pushed
        refine ⟨?_, Int.add_sub_cancel n _⟩
        have bmod : Int.bmod (n + pgEpochDays) (2 ^ 32) = n + pgEpochDays := by
          obtain ⟨lower, upper⟩ := room
          norm_num at lower upper
          apply Int.bmod_eq_of_le <;> norm_num <;> omega
        show some (Value.int (Int.bmod (n + pgEpochDays) (2 ^ 32))) = _
        rw [bmod]
        rfl
      · rw [checked_eq_none room] at pushed
        cases pushed
  | dateTime utc =>
      obtain ⟨fits, low, high, rfl⟩ := denotes
      rw [ColBuf.new, ColBuf.pushPg, sized_self (length_beInt 8 n), Stop.ok_bind,
        fromBeInt_field (by decide) fits] at pushed
      dsimp only at pushed
      rw [if_neg (by rintro (a | b) <;> contradiction)] at pushed
      by_cases room : Fits 64 (n + pgEpochMicros)
      · rw [checked_of_fits room] at pushed
        cases pushed
        exact ⟨rfl, Int.add_sub_cancel n _⟩
      · rw [checked_eq_none room] at pushed
        cases pushed
  | decimal p s =>
      obtain ⟨x, rfl, exact_⟩ := denotes
      obtain rfl : s = 0 := whole p s rfl
      rw [ColBuf.new, ColBuf.pushPg, Nat.zero_min] at pushed
      obtain ⟨m, read, rfl⟩ := map_eq_ok.mp pushed
      have same := scaled_exact read exact_
      subst same
      refine ⟨rfl, ?_⟩
      rcases scaled_cases x (Nat.zero_le 38) with ⟨-, fails⟩ | ⟨-, k, read', room, -⟩
      · rw [fails] at read
        cases read
      · obtain rfl := Except.ok.inj (read'.symm.trans read)
        exact fromBeInt_beInt (by decide) room
  | _ => exact denotes.elim

/-! ## Which text wins -/

inductive Sink where
  | bigquery
  | iceberg
deriving DecidableEq

/-- Whether a sink has its encoders compare a cursor as a number. -/
def Sink.numeric : Sink → Delivered → Bool
  | _, .int .. => true
  | .bigquery, .decimal .. => true
  | .iceberg, .decimal _ s => s = 0
  | _, _ => false

/-- The year of a date or a timestamp. -/
def yearOf : Delivered → Int → Int
  | .dateTime _, n => yearAt (n + pgEpochMicros)
  | _, n => (civil (n + pgEpochDays)).year

/-- A number that is no larger has no later text. -/
def InOrder (sink : Sink) (d : Delivered) (n m : Int) : Prop :=
  match d with
  | .date => yearOrder (yearOf d m) (yearOf d n) ≠ .lt
  | .dateTime _ => yearOrder (yearOf d m) (yearOf d n) ≠ .lt
  | .decimal _ s => sink.numeric d = true ∨ decimalOrder s m n ≠ .lt
  | _ => True

variable {sink : Sink} {d : Delivered} {n m : Int}

theorem xWins_text {x y : Text} : xWins x y false = true ↔ compare x y ≠ .lt :=
  Ordering.isGE_iff_ne_lt

/-- Texts compared as texts are in one order. -/
theorem ranked_text (text : Int → Text) : RankedBy (fun x y => xWins x y false) text where
  trans _ _ _ first second := Std.TransCmp.isGE_trans first second
  total a b loses := by
    apply Ordering.isGE_of_eq_gt
    exact Std.OrientedCmp.gt_of_not_isGE (Bool.not_eq_true _ ▸ loses)

theorem ranked_number {text : Int → Text}
    (number : ∀ a b, xWins (text a) (text b) true = decide (b ≤ a)) :
    RankedBy (fun x y => xWins x y true) text where
  trans a b c first second := by
    rw [number, decide_eq_true_iff] at first second ⊢
    exact second.trans first
  total a b loses := by
    rw [number, decide_eq_false_iff_not] at loses
    rw [number, decide_eq_true_iff]
    omega

/-- Integers are shown as decimals are that have no scale. -/
theorem xWins_int (a b : Int) : xWins (intText a) (intText b) true = decide (b ≤ a) :=
  xWins_decimalText 0 a b

/-- A number's texts, as a sink compares them. -/
theorem numeric_cases (sink : Sink) (d : Delivered) :
    sink.numeric d = false ∨ sink.numeric d = true ∧
      ∀ a b, xWins (cursorText d a) (cursorText d b) true = decide (b ≤ a) := by
  cases numeric : sink.numeric d with
  | false => exact .inl rfl
  | true =>
      refine .inr ⟨rfl, ?_⟩
      cases d with
      | int w unsigned => exact xWins_int
      | decimal p s => exact xWins_decimalText s
      | _ => cases sink <;> cases numeric

theorem ranked_cursorText (sink : Sink) (d : Delivered) :
    RankedBy (fun x y => xWins x y (sink.numeric d)) (cursorText d) := by
  rcases numeric_cases sink d with text | ⟨numeric, number⟩
  · rw [text]
    exact ranked_text _
  · rw [numeric]
    exact ranked_number number

/-- Two texts that do not lose to each other are one. -/
theorem cursorText_antisymm (first : xWins (cursorText d n) (cursorText d m)
    (sink.numeric d) = true)
    (second : xWins (cursorText d m) (cursorText d n) (sink.numeric d) = true) :
    cursorText d n = cursorText d m := by
  rcases numeric_cases sink d with text | ⟨numeric, number⟩
  · rw [text] at first second
    have same : compare (cursorText d n) (cursorText d m) = .eq :=
      Std.OrientedCmp.isGE_antisymm (Ordering.isGE_iff_ne_lt.mpr (xWins_text.mp first))
        (Ordering.isGE_iff_ne_lt.mpr (xWins_text.mp second))
    exact Std.LawfulEqCmp.eq_of_compare same
  · rw [numeric, number, decide_eq_true_iff] at first second
    rw [le_antisymm second first]

theorem compare_shift (a b k : Int) : compare (a + k) (b + k) = compare a b := by
  rcases lt_trichotomy a b with less | same | more
  · rw [compare_lt_iff_lt.mpr less, compare_lt_iff_lt]
    omega
  · rw [compare_eq_iff_eq.mpr same, compare_eq_iff_eq, same]
  · rw [compare_gt_iff_gt.mpr more, compare_gt_iff_gt]
    omega

/-- The larger number's text wins exactly in order. -/
theorem wins_iff (le : n ≤ m) :
    xWins (cursorText d m) (cursorText d n) (sink.numeric d) = true ↔ InOrder sink d n m := by
  have equal_or : compare m n ≠ .lt := by
    rw [ne_eq, compare_lt_iff_lt]
    omega
  have years {o : Ordering} : o.then (compare m n) ≠ .lt ↔ o ≠ .lt := by
    cases o with
    | eq => exact iff_of_true equal_or (by decide)
    | lt => exact Iff.rfl
    | gt => exact Iff.rfl
  rcases numeric_cases sink d with text | ⟨numeric, number⟩
  · rw [text, xWins_text]
    cases d with
    | date =>
        have days := compare_days (m + pgEpochDays) (n + pgEpochDays) [] []
        have nothing : compare ([] : Text) [] = .eq := rfl
        rw [List.append_nil, List.append_nil, compare_shift, nothing, Ordering.then_eq] at days
        rw [cursorText, cursorText, days, InOrder]
        exact years
    | dateTime utc =>
        rw [cursorText, cursorText, compare_tsText, compare_shift, InOrder]
        exact years
    | decimal p s =>
        have positive : 0 < s := by
          cases sink with
          | bigquery => cases text
          | iceberg => exact Nat.pos_of_ne_zero (of_decide_eq_false text)
        rw [cursorText, cursorText, compare_decimalText positive, InOrder, text]
        exact (or_iff_right (by decide)).symm
    | int w unsigned => cases sink <;> cases text
    | _ =>
        refine iff_of_true ?_ trivial
        intro less
        cases less
  · rw [numeric, number, decide_eq_true_iff]
    apply iff_of_true le
    cases d with
    | date => cases sink <;> cases numeric
    | dateTime utc => cases sink <;> cases numeric
    | decimal p s => exact .inl numeric
    | _ => trivial

/-! ## Years of four digits -/

theorem year_mono {a b : Int} (le : a ≤ b) : (civil a).year ≤ (civil b).year := by
  obtain ⟨valid, number⟩ := Calendar.civil_spec a
  obtain ⟨valid', number'⟩ := Calendar.civil_spec b
  by_contra later
  have less := number_lt_of_year valid' valid (not_le.mp later)
  rw [number, number'] at less
  exact absurd le (not_le.mpr less)

theorem yearOf_mono (d : Delivered) (le : n ≤ m) : yearOf d n ≤ yearOf d m := by
  cases d with
  | dateTime utc =>
      apply year_mono
      apply Int.ediv_le_ediv (by decide)
      apply Int.ediv_le_ediv (by decide)
      exact Int.add_le_add_right le _
  | _ => exact year_mono (Int.add_le_add_right le _)

theorem width_four {y : Nat} (small : y ≤ 9999) : width 4 y = 4 := by
  have short : (Decimal.itoa y).length ≤ 4 := by
    rw [Decimal.itoa]
    split
    · decide
    · rw [List.length_reverse]
      exact (Nat.digits_length_le_iff (by decide) y).mpr (by omega)
  rw [width]
  omega

/-- Years that are shown in four digits are in order. -/
theorem inOrder_of_plain {utc : Bool} (dated : d = .date ∨ d = .dateTime utc) (le : n ≤ m)
    (low : 0 ≤ yearOf d n) (high : yearOf d m ≤ 9999) : InOrder sink d n m := by
  have years := yearOf_mono d le
  have order : yearOrder (yearOf d m) (yearOf d n) ≠ .lt := by
    rw [yearOrder, yearClass, yearClass, if_neg (by omega), if_neg (by omega), if_neg (by omega),
      if_neg (by omega), numeralOrder, width_four (by omega), width_four (by omega), if_pos rfl,
      compare_eq_iff_eq.mpr (rfl : (2 : Nat) = 2), Ordering.eq_then, ne_eq, compare_lt_iff_lt]
    omega
  rcases dated with rfl | rfl
  · exact order
  · exact order

end Apitap.Parquet
