import Apitap.Foundation.Checked
import Apitap.Wire.CopyStream
import Mathlib.Tactic.IntervalCases
import Mathlib.Tactic.Linarith
import Mathlib.Tactic.Positivity

/-!
# A binary NUMERIC as a scaled integer

A payload is a header of four 16-bit words (digit count, weight, sign, display scale) and
base-10000 digit groups. The general decoder accumulates the groups in checked arithmetic
and shifts the sum to the display scale; the fast path does the same without checks for up
to three groups and a shift of at most 26 places. The exponent stays in 32 bits by far, and
is an integer here.
-/

namespace Apitap.Copy

open Foundation

def bad (what : String) : Error := .transfer ("pg binary COPY: malformed " ++ what ++ " field")

/-- A 16-bit word read as signed. -/
def i16 (n : Nat) : Int := Int.bmod n 65536

/-- The 16-bit word at a byte offset. -/
def word (f : Bytes) (at_ : Nat) : Nat := fromBe ((f.drop at_).take 2)

/-- The first `n` digit groups after the header. -/
def groups (f : Bytes) : Nat → List Nat
  | 0 => []
  | n + 1 => groups f n ++ [word f (8 + 2 * n)]

def checkSign (sign : Nat) : Except (Stop Error) Unit :=
  if sign = 0x0000 ∨ sign = 0x4000 then .ok ()
  else if sign = 0xC000 then .error (.err (bad "numeric NaN"))
  else if sign = 0xD000 ∨ sign = 0xF000 then .error (.err (bad "numeric Infinity"))
  else .error (.err (bad "numeric sign"))

/-- All digit groups as one number, or nothing where it leaves 128 bits. -/
def accumulate (acc : Int) : List Nat → Option Int
  | [] => some acc
  | d :: ds => (checked 128 (acc * 10000)).bind fun a =>
      (checked 128 (a + d)).bind fun a => accumulate a ds

/-- Ten times over, `n` times. -/
def shiftUp (acc : Int) : Nat → Option Int
  | 0 => some acc
  | n + 1 => (checked 128 (acc * 10)).bind fun a => shiftUp a n

/-- A tenth, truncated, `n` times. -/
def shiftDown (acc : Int) : Nat → Int
  | 0 => acc
  | n + 1 => shiftDown (acc.tdiv 10) n

def numericToScaledI128RawGeneral (f : Bytes) : Except (Stop Error) (Int × Int) :=
  if f.length < 8 then .error (.err (bad "numeric"))
  else
    let ndigits := i16 (word f 0)
    if ndigits < 0 then .error (.err (bad "numeric negative ndigits"))
    else
      let weight := i16 (word f 2)
      let sign := word f 4
      let dscale : Int := word f 6
      (checkSign sign).bind fun _ =>
        if f.length < 8 + ndigits.toNat * 2 then .error (.err (bad "numeric digits"))
        else
          let sum := accumulate 0 (groups f ndigits.toNat)
          (Stop.orErr (bad "numeric overflow") sum).bind fun acc =>
            let exp10 := (weight - ndigits + 1) * 4 + dscale
            (Stop.orErr (bad "numeric overflow") (shiftUp acc exp10.toNat)).bind fun acc =>
              let acc := shiftDown acc (-exp10).toNat
              (if sign = 0x4000 then Stop.orPanic (checked 128 (-acc)) else .ok acc).bind fun acc =>
                .ok (acc, dscale)

/-- The sum of up to three groups, in 64 bits. -/
def accumulate64 (acc : Nat) : List Nat → Option Nat
  | [] => some acc
  | d :: ds => (checkedNat 64 (acc * 10000)).bind fun a =>
      (checkedNat 64 (a + d)).bind fun a => accumulate64 a ds

/-- An entry of the table of powers. -/
def pow10 (i : Nat) : Option Int := if i < 27 then some (10 ^ i) else none

/-- The fast path's value: the groups shifted by `exp10` places in unchecked arithmetic. -/
def fastValue (ds : List Nat) (exp10 : Int) (neg : Bool) : Option Int :=
  (accumulate64 0 ds).bind fun acc =>
    (if 0 ≤ exp10 then (pow10 exp10.toNat).bind fun p => checked 128 (acc * p)
      else (pow10 (-exp10).toNat).map fun p => (acc : Int).tdiv p).bind fun v =>
        if neg then checked 128 (-v) else some v

def numericToScaledI128Raw (f : Bytes) : Except (Stop Error) (Int × Int) :=
  let general := numericToScaledI128RawGeneral f
  if 8 ≤ f.length then
    let hdr := fromBe (f.take 8)
    let ndigits := hdr / 2 ^ 48 % 2 ^ 16
    let sign := hdr / 2 ^ 16 % 2 ^ 16
    if ndigits ≤ 3 ∧ (sign = 0x0000 ∨ sign = 0x4000) then
      if 8 + ndigits * 2 ≤ f.length then
        let dscale : Int := (hdr % 2 ^ 16 : Nat)
        if ndigits = 0 then .ok (0, dscale)
        else
          let weight := i16 (hdr / 2 ^ 32 % 2 ^ 16)
          let exp10 := (weight - ndigits + 1) * 4 + dscale
          if -26 ≤ exp10 ∧ exp10 ≤ 26 then
            (Stop.orPanic (fastValue (groups f ndigits) exp10 (sign = 0x4000))).map (·, dscale)
          else general
      else general
    else general
  else general

/-- Ten to the `n` where it leaves 128 bits or not. -/
def checkedPow (n : Nat) : Option Int := checked 128 (10 ^ n)

def numericToScaledI128 (f : Bytes) (scale : Nat) : Except (Stop Error) Int :=
  (numericToScaledI128Raw f).bind fun (acc, dscale) =>
    let diff := (scale : Int) - dscale
    if diff = 0 then .ok acc
    else if 0 < diff then
      (Stop.orErr (bad "numeric overflow") (checkedPow diff.toNat)).bind fun mul =>
        Stop.orErr (bad "numeric overflow") (checked 128 (acc * mul))
    else
      match checkedPow (-diff).toNat with
      | some div => .ok (acc.tdiv div)
      | none => .ok 0

/-! ## What the loops compute -/

theorem word_lt (f : Bytes) (at_ : Nat) : word f at_ < 2 ^ 16 := by
  have short : ((f.drop at_).take 2).length ≤ 2 := by
    rw [List.length_take]
    exact Nat.min_le_left _ _
  calc word f at_ < 256 ^ ((f.drop at_).take 2).length := fromBe_lt _
    _ ≤ 256 ^ 2 := Nat.pow_le_pow_right (by decide) short

theorem i16_eq {n : Nat} (fits : n < 2 ^ 16) :
    i16 n = if n < 2 ^ 15 then (n : Int) else (n : Int) - 65536 := by
  have wraps : i16 n = if (n : Int) % 65536 < 32768 then (n : Int) % 65536
      else (n : Int) % 65536 - 65536 := Int.bmod_def _ _
  rw [wraps, Int.emod_eq_of_lt (Int.natCast_nonneg n) (by omega)]
  split
  · rw [if_pos (by omega)]
  · rw [if_neg (by omega)]

theorem i16_of_lt {n : Nat} (small : n < 2 ^ 15) : i16 n = n := by
  rw [i16_eq (small.trans (by decide)), if_pos small]

theorem i16_nonneg {n : Nat} (fits : n < 2 ^ 16) : 0 ≤ i16 n ↔ n < 2 ^ 15 := by
  rw [i16_eq fits]
  split
  · exact iff_of_true (Int.natCast_nonneg n) ‹_›
  · exact iff_of_false (by omega) ‹_›

@[simp] theorem length_groups (f : Bytes) (n : Nat) : (groups f n).length = n := by
  induction n with
  | zero => rfl
  | succ n ih => rw [groups, List.length_append, ih, List.length_singleton]

theorem accumulate_eq {acc : Int} (nonneg : 0 ≤ acc) (fits : Fits 128 acc) (ds : List Nat) :
    accumulate acc ds = checked 128 (acc * 10000 ^ ds.length + Radix.value 10000 ds) := by
  induction ds generalizing acc with
  | nil => simp [accumulate, checked_of_fits fits]
  | cons d ds ih =>
      have shifted : acc * 10000 ^ (d :: ds).length + Radix.value 10000 (d :: ds) =
          (acc * 10000 + d) * 10000 ^ ds.length + Radix.value 10000 ds := by
        rw [Radix.value_cons, List.length_cons]
        push_cast
        ring
      have grown : 0 ≤ acc * 10000 + d := by positivity
      have one : (1 : Int) ≤ 10000 ^ ds.length := one_le_pow₀ (by decide)
      have rest : acc * 10000 + d ≤
          (acc * 10000 + d) * 10000 ^ ds.length + Radix.value 10000 ds := by
        nlinarith [Int.natCast_nonneg (Radix.value 10000 ds)]
      rw [shifted, accumulate]
      refine checked_bind (by positivity) (by omega) fun _ => ?_
      exact checked_bind grown rest fun fits => ih grown fits

theorem shiftUp_eq {acc : Int} (nonneg : 0 ≤ acc) (fits : Fits 128 acc) (n : Nat) :
    shiftUp acc n = checked 128 (acc * 10 ^ n) := by
  induction n generalizing acc with
  | zero => simp [shiftUp, checked_of_fits fits]
  | succ n ih =>
      have one : (1 : Int) ≤ 10 ^ n := one_le_pow₀ (by decide)
      rw [shiftUp, pow_succ', ← mul_assoc]
      exact checked_bind (by positivity) (by nlinarith) fun fits => ih (by positivity) fits

theorem shiftDown_eq {acc : Int} (nonneg : 0 ≤ acc) (n : Nat) :
    shiftDown acc n = acc / 10 ^ n := by
  induction n generalizing acc with
  | zero => simp [shiftDown]
  | succ n ih =>
      rw [shiftDown, Int.tdiv_eq_ediv_of_nonneg nonneg, ih (by omega), pow_succ',
        Int.ediv_ediv_of_nonneg (by decide)]

theorem accumulate64_eq {acc : Nat} (lt : acc < 2 ^ 64) (ds : List Nat) :
    accumulate64 acc ds = checkedNat 64 (acc * 10000 ^ ds.length + Radix.value 10000 ds) := by
  induction ds generalizing acc with
  | nil =>
      rw [accumulate64, List.length_nil, pow_zero, mul_one, Radix.value_nil, add_zero,
        checkedNat_of_lt lt]
  | cons d ds ih =>
      have shifted : acc * 10000 ^ (d :: ds).length + Radix.value 10000 (d :: ds) =
          (acc * 10000 + d) * 10000 ^ ds.length + Radix.value 10000 ds := by
        rw [Radix.value_cons, List.length_cons]
        ring
      have one : 1 ≤ 10000 ^ ds.length := Nat.one_le_pow _ _ (by decide)
      have rest : acc * 10000 + d ≤
          (acc * 10000 + d) * 10000 ^ ds.length + Radix.value 10000 ds := by
        nlinarith
      rw [shifted, accumulate64]
      refine checkedNat_bind (Nat.le_trans (Nat.le_add_right _ d) rest) fun _ => ?_
      exact checkedNat_bind rest fun lt => ih lt

/-! ## A payload with a plain sign and all its groups -/

/-- The groups as one number. -/
def digits (f : Bytes) : Nat := Radix.value 10000 (groups f (word f 0))

/-- The shift from that number to the display scale. -/
def exponent (f : Bytes) : Int := (i16 (word f 2) - word f 0 + 1) * 4 + word f 6

structure Plain (f : Bytes) : Prop where
  header : 8 ≤ f.length
  count : word f 0 < 2 ^ 15
  sign : word f 4 = 0x0000 ∨ word f 4 = 0x4000
  room : 8 + word f 0 * 2 ≤ f.length

/-- A number shifted by a power of ten, where the numbers on the way fit. -/
def shifted (n : Nat) (exp10 : Int) : Option Int :=
  (checked 128 n).bind fun acc =>
    (checked 128 (acc * 10 ^ exp10.toNat)).map fun acc => acc / 10 ^ (-exp10).toNat

theorem general_plain {f : Bytes} (plain : Plain f) :
    numericToScaledI128RawGeneral f =
      (Stop.orErr (bad "numeric overflow") (shifted (digits f) (exponent f))).map fun v =>
        (if word f 4 = 0x4000 then -v else v, (word f 6 : Int)) := by
  have count : i16 (word f 0) = word f 0 := i16_of_lt plain.count
  have signed : checkSign (word f 4) = .ok () := if_pos plain.sign
  have start : accumulate 0 (groups f (word f 0)) = checked 128 (digits f) := by
    rw [accumulate_eq le_rfl (fits_of_nonneg le_rfl (by positivity)), zero_mul, zero_add, digits]
  rw [numericToScaledI128RawGeneral, if_neg (Nat.not_lt.mpr plain.header)]
  simp only [count, Int.toNat_natCast]
  rw [if_neg (Int.not_lt.mpr (Int.natCast_nonneg _)), signed, Stop.ok_bind,
    if_neg (Nat.not_lt.mpr plain.room), start, ← exponent, shifted]
  by_cases small : Fits 128 (digits f : Int)
  · rw [checked_of_fits small, Stop.orErr_some, Stop.ok_bind,
      shiftUp_eq (Int.natCast_nonneg _) small, Option.bind_some]
    have nonneg : (0 : Int) ≤ digits f * 10 ^ (exponent f).toNat :=
      mul_nonneg (Int.natCast_nonneg _) (pow_nonneg (by decide) _)
    by_cases large : Fits 128 ((digits f : Int) * 10 ^ (exponent f).toNat)
    · have down := shiftDown_eq nonneg (-exponent f).toNat
      have positive : (0 : Int) ≤ digits f * 10 ^ (exponent f).toNat / 10 ^ (-exponent f).toNat :=
        Int.ediv_nonneg nonneg (pow_nonneg (by decide) _)
      have less := large.of_le positive (Int.ediv_le_self _ nonneg)
      rw [checked_of_fits large, Stop.orErr_some, Stop.ok_bind, down, Option.map_some,
        Stop.orErr_some, Except.map, checked_of_fits (less.neg positive), Stop.orPanic_some]
      by_cases negative : word f 4 = 0x4000
      · rw [if_pos negative, if_pos negative, Stop.ok_bind]
      · rw [if_neg negative, if_neg negative, Stop.ok_bind]
    · rw [checked_eq_none large, Stop.orErr_none, Stop.error_bind, Option.map_none,
        Stop.orErr_none, Except.map]
  · rw [checked_eq_none small, Stop.orErr_none, Stop.error_bind, Option.bind_none, Stop.orErr_none,
      Except.map]

/-! ## The fast path against the general decoder -/

theorem header_words {f : Bytes} (long : 8 ≤ f.length) :
    fromBe (f.take 8) =
      ((word f 0 * 2 ^ 16 + word f 2) * 2 ^ 16 + word f 4) * 2 ^ 16 + word f 6 := by
  have cut (i : Nat) (le : i + 2 ≤ f.length) :
      fromBe (f.take (i + 2)) = fromBe (f.take i) * 2 ^ 16 + word f i := by
    have two : ((f.drop i).take 2).length = 2 := by
      rw [List.length_take, List.length_drop]
      omega
    rw [List.take_add, fromBe_append, two]
    rfl
  have none : fromBe (f.take 0) = 0 := rfl
  rw [cut 6 (by omega), cut 4 (by omega), cut 2 (by omega), cut 0 (by omega), none, Nat.zero_mul,
    Nat.zero_add]

/-- Up to three groups of any 16-bit words. -/
theorem value_groups_le {f : Bytes} {n : Nat} (few : n ≤ 3) :
    Radix.value 10000 (groups f n) ≤ 6554155415535 ∧
      (n ≤ 2 → Radix.value 10000 (groups f n) ≤ 655415535) := by
  have a := word_lt f 8
  have b := word_lt f 10
  have c := word_lt f 12
  interval_cases n
  · simp [groups]
  · simp [groups]
    omega
  · simp [groups, Radix.value_cons]
    omega
  · simp [groups, Radix.value_cons]
    omega

theorem fastValue_eq {ds : List Nat} {exp10 : Int} (neg : Bool)
    (small : Radix.value 10000 ds < 2 ^ 64) (window : -26 ≤ exp10 ∧ exp10 ≤ 26) :
    fastValue ds exp10 neg =
      (shifted (Radix.value 10000 ds) exp10).map fun v => if neg then -v else v := by
  have sum : accumulate64 0 ds = some (Radix.value 10000 ds) := by
    rw [accumulate64_eq (Nat.two_pow_pos _), Nat.zero_mul, Nat.zero_add, checkedNat_of_lt small]
  rw [fastValue, sum, Option.bind_some, shifted]
  generalize Radix.value 10000 ds = n at small
  have start : Fits 128 (n : Int) :=
    fits_of_nonneg (Int.natCast_nonneg _) (lt_of_lt_of_le (Int.ofNat_lt.mpr small) (by norm_num))
  rw [checked_of_fits start, Option.bind_some]
  -- the sign of a value that fits
  have sign {v : Int} (nonneg : 0 ≤ v) (fits : Fits 128 v) :
      (if neg = true then checked 128 (-v) else some v) = some (if neg = true then -v else v) := by
    rw [checked_of_fits (fits.neg nonneg)]
    split
    · rfl
    · rfl
  by_cases up : 0 ≤ exp10
  · have down : (-exp10).toNat = 0 := by omega
    have table : pow10 exp10.toNat = some (10 ^ exp10.toNat) := if_pos (by omega)
    rw [if_pos up, table, Option.bind_some, down]
    by_cases fits : Fits 128 ((n : Int) * 10 ^ exp10.toNat)
    · have nonneg : 0 ≤ (n : Int) * 10 ^ exp10.toNat :=
        mul_nonneg (Int.natCast_nonneg _) (pow_nonneg (by decide) _)
      rw [checked_of_fits fits, Option.bind_some, Option.map_some, pow_zero, Int.ediv_one,
        Option.map_some]
      exact sign nonneg fits
    · rw [checked_eq_none fits, Option.bind_none, Option.map_none, Option.map_none]
  · have none : exp10.toNat = 0 := by omega
    have table : pow10 (-exp10).toNat = some (10 ^ (-exp10).toNat) := if_pos (by omega)
    have nonneg : 0 ≤ (n : Int) / 10 ^ (-exp10).toNat :=
      Int.ediv_nonneg (Int.natCast_nonneg _) (pow_nonneg (by decide) _)
    rw [if_neg up, table, Option.map_some, Option.bind_some, none, pow_zero, mul_one,
      checked_of_fits start, Option.map_some, Option.map_some,
      Int.tdiv_eq_ediv_of_nonneg (Int.natCast_nonneg _)]
    exact sign nonneg (start.of_le nonneg (Int.ediv_le_self _ (Int.natCast_nonneg _)))

/-- Where the fast path multiplies past 128 bits: three groups of a plain sign, shifted by
26 places, whose number is past the bound the table was sized for. -/
structure Escapes (f : Bytes) : Prop where
  count : word f 0 = 3
  sign : word f 4 = 0x0000 ∨ word f 4 = 0x4000
  room : 14 ≤ f.length
  shift : 4 * i16 (word f 2) + word f 6 = 34
  large : 1701411834604 < digits f

/-- The fast path was taken. -/
structure Fast (f : Bytes) : Prop where
  header : 8 ≤ f.length
  count : word f 0 ≤ 3
  sign : word f 4 = 0x0000 ∨ word f 4 = 0x4000
  room : 8 + word f 0 * 2 ≤ f.length
  window : word f 0 ≠ 0 → -26 ≤ exponent f ∧ exponent f ≤ 26

instance (f : Bytes) : Decidable (Fast f) :=
  decidable_of_iff
    (8 ≤ f.length ∧ word f 0 ≤ 3 ∧ (word f 4 = 0x0000 ∨ word f 4 = 0x4000) ∧
      8 + word f 0 * 2 ≤ f.length ∧
      (word f 0 ≠ 0 → -26 ≤ exponent f ∧ exponent f ≤ 26))
    ⟨fun ⟨a, b, c, d, e⟩ => ⟨a, b, c, d, e⟩, fun h => ⟨h.1, h.2, h.3, h.4, h.5⟩⟩

/-- The header's fields fall out of one load. -/
theorem raw_eq {f : Bytes} (long : 8 ≤ f.length) :
    numericToScaledI128Raw f =
      if word f 0 ≤ 3 ∧ (word f 4 = 0x0000 ∨ word f 4 = 0x4000) then
        if 8 + word f 0 * 2 ≤ f.length then
          if word f 0 = 0 then .ok (0, (word f 6 : Int))
          else if -26 ≤ exponent f ∧ exponent f ≤ 26 then
            (Stop.orPanic (fastValue (groups f (word f 0)) (exponent f) (word f 4 = 0x4000))).map
              (·, (word f 6 : Int))
          else numericToScaledI128RawGeneral f
        else numericToScaledI128RawGeneral f
      else numericToScaledI128RawGeneral f := by
  have load := header_words long
  have a := word_lt f 0
  have b := word_lt f 2
  have c := word_lt f 4
  have d := word_lt f 6
  have ndigits : fromBe (f.take 8) / 2 ^ 48 % 2 ^ 16 = word f 0 := by omega
  have weight : fromBe (f.take 8) / 2 ^ 32 % 2 ^ 16 = word f 2 := by omega
  have sign : fromBe (f.take 8) / 2 ^ 16 % 2 ^ 16 = word f 4 := by omega
  have dscale : fromBe (f.take 8) % 2 ^ 16 = word f 6 := by omega
  rw [numericToScaledI128Raw, if_pos long]
  simp only [ndigits, weight, sign, dscale]
  rfl

theorem raw_of_slow {f : Bytes} (slow : ¬ Fast f) :
    numericToScaledI128Raw f = numericToScaledI128RawGeneral f := by
  by_cases long : 8 ≤ f.length
  · rw [raw_eq long]
    split
    case isTrue few =>
        split
        case isTrue room =>
            rw [
              if_neg fun none => slow ⟨long, few.1, few.2, room, fun some => (some none).elim⟩,
              if_neg fun window => slow ⟨long, few.1, few.2, room, fun _ => window⟩]
        · rfl
    · rfl
  · exact if_neg long

theorem raw_of_fast {f : Bytes} (fast : Fast f) :
    numericToScaledI128Raw f =
      (Stop.orPanic (shifted (digits f) (exponent f))).map fun v =>
        (if word f 4 = 0x4000 then -v else v, (word f 6 : Int)) := by
  rw [raw_eq fast.header, if_pos ⟨fast.count, fast.sign⟩, if_pos fast.room]
  by_cases none : word f 0 = 0
  · have zero : digits f = 0 := by rw [digits, none]; rfl
    have fits : Fits 128 0 := fits_of_nonneg le_rfl (pow_pos (by decide) _)
    rw [if_pos none, zero, shifted, Nat.cast_zero, checked_of_fits fits, Option.bind_some, zero_mul,
      checked_of_fits fits, Option.map_some, Int.zero_ediv, Stop.orPanic_some, Except.map,
      neg_zero, ite_self]
  · have small : Radix.value 10000 (groups f (word f 0)) < 2 ^ 64 :=
      (value_groups_le fast.count).1.trans_lt (by norm_num)
    rw [if_neg none, if_pos (fast.window none), fastValue_eq _ small (fast.window none), digits]
    cases shifted (Radix.value 10000 (groups f (word f 0))) (exponent f) with
    | none => rfl
    | some v => simp only [Option.map_some, Stop.orPanic_some, Except.map, decide_eq_true_eq]

theorem shifted_zero (exp10 : Int) : shifted 0 exp10 = some 0 := by
  have fits : Fits 128 0 := fits_of_nonneg le_rfl (pow_pos (by decide) _)
  rw [shifted, Nat.cast_zero, checked_of_fits fits, Option.bind_some, zero_mul,
    checked_of_fits fits, Option.map_some, Int.zero_ediv]

/-- A small number's shift leaves 128 bits only by 26 places and past the table's bound. -/
theorem shifted_eq_none {n : Nat} {exp10 : Int} (small : n ≤ 6554155415535)
    (window : exp10 ≤ 26) :
    shifted n exp10 = none ↔ exp10 = 26 ∧ 1701411834604 < n := by
  have start : Fits 128 (n : Int) :=
    fits_of_nonneg (Int.natCast_nonneg _) (by norm_num; omega)
  rw [shifted, checked_of_fits start, Option.bind_some, Option.map_eq_none_iff]
  rcases lt_or_eq_of_le window with less | rfl
  · have power : (10 : Int) ^ exp10.toNat ≤ 10 ^ 25 := pow_le_pow_right₀ (by decide) (by omega)
    have fits : Fits 128 ((n : Int) * 10 ^ exp10.toNat) := by
      refine fits_of_nonneg (mul_nonneg (Int.natCast_nonneg _) (pow_nonneg (by decide) _)) ?_
      calc (n : Int) * 10 ^ exp10.toNat ≤ 6554155415535 * 10 ^ 25 :=
            mul_le_mul (by omega) power (pow_nonneg (by decide) _) (by decide)
        _ < 2 ^ (128 - 1) := by norm_num
    rw [checked_of_fits fits]
    constructor
    · rintro ⟨⟩
    · rintro ⟨rfl, -⟩
      exact absurd less (lt_irrefl _)
  · have power : (10 : Int) ^ (26 : Int).toNat = 100000000000000000000000000 := by
      rw [show (26 : Int).toNat = 26 from rfl]
      norm_num
    have bound : Fits 128 ((n : Int) * 10 ^ (26 : Int).toNat) ↔ n ≤ 1701411834604 := by
      constructor
      · intro fits
        have lt := fits.2
        norm_num [power] at lt
        omega
      · intro le
        refine fits_of_nonneg (mul_nonneg (Int.natCast_nonneg _) (pow_nonneg (by decide) _)) ?_
        norm_num [power]
        omega
    by_cases fits : Fits 128 ((n : Int) * 10 ^ (26 : Int).toNat)
    · have le := bound.mp fits
      rw [checked_of_fits fits]
      constructor
      · rintro ⟨⟩
      · rintro ⟨-, lt⟩
        omega
    · rw [checked_eq_none fits]
      exact ⟨fun _ => ⟨rfl, Nat.not_le.mp fun le => fits (bound.mpr le)⟩, fun _ => rfl⟩

theorem Fast.plain {f : Bytes} (fast : Fast f) : Plain f :=
  ⟨fast.header, fast.count.trans_lt (by decide), fast.sign, fast.room⟩

theorem fast_eq_none {f : Bytes} (fast : Fast f) :
    shifted (digits f) (exponent f) = none ↔ Escapes f := by
  have few := value_groups_le (f := f) fast.count
  have three (shift : 4 * i16 (word f 2) + word f 6 = 34) (count : word f 0 = 3) :
      exponent f = 26 := by
    rw [exponent, count]
    omega
  by_cases none : word f 0 = 0
  · have zero : digits f = 0 := by rw [digits, none]; rfl
    rw [zero, shifted_zero]
    constructor
    · rintro ⟨⟩
    · intro escapes
      have count := escapes.count
      omega
  · rw [digits, shifted_eq_none few.1 (fast.window none).2]
    constructor
    · rintro ⟨shift, large⟩
      have count : word f 0 = 3 := by
        have le := fast.count
        by_contra other
        have small := few.2 (by omega)
        omega
      have room := fast.room
      rw [exponent, count] at shift
      exact ⟨count, fast.sign, by omega, by omega, large⟩
    · intro escapes
      exact ⟨three escapes.shift escapes.count, escapes.large⟩

theorem Escapes.fast {f : Bytes} (escapes : Escapes f) : Fast f := by
  have room := escapes.room
  have count := escapes.count
  refine ⟨by omega, by omega, escapes.sign, by omega, fun _ => ?_⟩
  have shift := escapes.shift
  rw [exponent, count]
  omega

theorem raw_eq_general {f : Bytes} (within : ¬ Escapes f) :
    numericToScaledI128Raw f = numericToScaledI128RawGeneral f := by
  by_cases fast : Fast f
  · rw [raw_of_fast fast, general_plain fast.plain]
    cases value : shifted (digits f) (exponent f) with
    | none => exact absurd ((fast_eq_none fast).mp value) within
    | some v => rw [Stop.orPanic_some, Stop.orErr_some]
  · exact raw_of_slow fast

/-- The general decoder never panics. -/
theorem general_ne_panic (f : Bytes) : numericToScaledI128RawGeneral f ≠ .error .panic := by
  by_cases plain : Plain f
  · rw [general_plain plain]
    cases shifted (digits f) (exponent f) with
    | none => rintro ⟨⟩
    | some v => rintro ⟨⟩
  · intro panics
    rw [numericToScaledI128RawGeneral] at panics
    split at panics
    case isTrue => cases panics
    case isFalse header =>
        dsimp only at panics
        split at panics
        case isTrue => cases panics
        case isFalse count =>
            by_cases sign : word f 4 = 0x0000 ∨ word f 4 = 0x4000
            · rw [checkSign, if_pos sign, Stop.ok_bind] at panics
              split at panics
              case isTrue => cases panics
              case isFalse room =>
                  have counted := (i16_nonneg (word_lt f 0)).mp (Int.not_lt.mp count)
                  rw [i16_of_lt counted, Int.toNat_natCast] at room
                  exact plain ⟨Nat.not_lt.mp header, counted, sign, Nat.not_lt.mp room⟩
            · rw [checkSign, if_neg sign] at panics
              split at panics
              · cases panics
              · split at panics
                · cases panics
                · cases panics

/-- The two stop alike: the same value, or an error on both sides. -/
def SameOutcome {α : Type} : Except (Stop Error) α → Except (Stop Error) α → Prop
  | .ok a, .ok b => a = b
  | .error (.err _), .error (.err _) => True
  | _, _ => False

/-- The fast path is its oracle but where it escapes. -/
theorem raw_same_iff (f : Bytes) :
    SameOutcome (numericToScaledI128Raw f) (numericToScaledI128RawGeneral f) ↔ ¬ Escapes f := by
  constructor
  · intro same escapes
    rw [raw_of_fast escapes.fast, (fast_eq_none escapes.fast).mpr escapes, Stop.orPanic_none,
      Except.map] at same
    exact same.elim
  · intro within
    rw [raw_eq_general within]
    cases outcome : numericToScaledI128RawGeneral f with
    | ok v => exact rfl
    | error e =>
        cases e with
        | err e => exact trivial
        | panic => exact absurd outcome (general_ne_panic f)

namespace Wide

/-- Three groups of ones, weight 8, display scale 2. -/
def payload : Bytes :=
  [0x00, 0x03, 0x00, 0x08, 0x00, 0x00, 0x00, 0x02, 0xFF, 0xFF, 0xFF, 0xFF, 0xFF, 0xFF]

/-- The fast path overflows where the general decoder reports an error. -/
theorem ones_escape :
    ¬ SameOutcome (numericToScaledI128Raw payload) (numericToScaledI128RawGeneral payload) := by
  have fast : numericToScaledI128Raw payload = .error .panic := by decide +kernel
  rw [fast]
  exact id

end Wide

end Apitap.Copy
