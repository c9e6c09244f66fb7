import Apitap.Guard.NameOwner
import Mathlib.Data.List.TakeWhile

/-!
# Names of published parts

A publish writes its parts directly under the table's directory, under a generation of names
nothing carried before. A sweep goes by the names alone: it may delete these and nothing else.
-/

namespace Apitap.Publish

open Naming (Text size size_ascii stripSuffix digit36)

/-- `str::strip_prefix`. -/
def stripPrefix (t front : Text) : Option Text :=
  if front.isPrefixOf t then some (t.drop front.length) else none

/-- `str::rsplit_once`. -/
def rsplitOnce (c : Char) (t : Text) : Option (Text × Text) :=
  let back := (t.reverse.takeWhile (· ≠ c)).reverse
  if back.length = t.length then none else some (t.take (t.length - back.length - 1), back)

def isLowerOrDigit (c : Char) : Bool :=
  (97 ≤ c.toNat ∧ c.toNat ≤ 122) ∨ (48 ≤ c.toNat ∧ c.toNat ≤ 57)

def isDigit (c : Char) : Bool := 48 ≤ c.toNat ∧ c.toNat ≤ 57

/-- The program's own part-file names. -/
def isPartObject (name : Text) : Bool :=
  let base := ((rsplitOnce '/' name).map (·.2)).getD name
  match (stripPrefix base "part-".toList).bind (stripSuffix · ".parquet".toList) with
  | none => false
  | some r =>
      let (gen, digits) := (rsplitOnce '-' r).getD ([], r)
      size digits = 5 ∧ digits.all isDigit ∧ size gen ≤ 32 ∧ gen.all isLowerOrDigit

/-- A part file of a table: directly under its directory. -/
def isOwnPart (dir key : Text) : Bool :=
  match stripPrefix key dir with
  | none => false
  | some rest => '/' ∉ rest ∧ isPartObject rest

/-- The digits of a number in base 36. -/
def base36 (n : Nat) : Text := if n < 36 then [digit36 n] else base36 (n / 36) ++ [digit36 (n % 36)]
decreasing_by omega

/-- Milliseconds and random bits. -/
def partGeneration (ms rnd : Nat) : Text := base36 ms ++ base36 rnd

/-- `{n:05}`. -/
def padded (n : Nat) : Text :=
  List.replicate (5 - (Nat.toDigits 10 n).length) '0' ++ Nat.toDigits 10 n

/-- `part-{n:05}.parquet`, as a loader names its part. -/
def stagedName (n : Nat) : Text := "part-".toList ++ padded n ++ ".parquet".toList

/-- `part-{gen}-{i:05}.parquet` in a directory. -/
def partName (dir gen : Text) (i : Nat) : Text :=
  dir ++ ("part-".toList ++ gen ++ '-' :: padded i ++ ".parquet".toList)

/-- A name of the shape of a part file, directly under a directory. -/
def PartLike (dir key : Text) : Prop :=
  ∃ mid, key = dir ++ ("part-".toList ++ mid ++ ".parquet".toList) ∧ '/' ∉ mid

variable {dir key gen : Text} {i j n w : Nat}

theorem stripPrefix_eq_some {t front rest : Text} :
    stripPrefix t front = some rest ↔ t = front ++ rest := by
  constructor
  · intro is
    rw [stripPrefix] at is
    split_ifs at is with fits
    obtain ⟨back, rfl⟩ := List.isPrefixOf_iff_prefix.mp fits
    rw [List.drop_left, Option.some_inj] at is
    rw [is]
  · rintro rfl
    rw [stripPrefix, if_pos (List.isPrefixOf_iff_prefix.mpr (List.prefix_append _ _)),
      List.drop_left]

theorem stripSuffix_eq_some {t back rest : Text} :
    stripSuffix t back = some rest ↔ t = rest ++ back := by
  constructor
  · intro is
    rw [stripSuffix] at is
    split_ifs at is with fits
    obtain ⟨front, rfl⟩ := List.isSuffixOf_iff_suffix.mp fits
    rw [List.length_append, Nat.add_sub_cancel, List.take_left, Option.some_inj] at is
    rw [is]
  · rintro rfl
    rw [stripSuffix, if_pos (List.isSuffixOf_iff_suffix.mpr (List.suffix_append _ _)),
      List.length_append, Nat.add_sub_cancel, List.take_left]

theorem takeWhile_reverse {c : Char} {a b : Text} (clean : c ∉ b) :
    (((a ++ c :: b).reverse).takeWhile (· ≠ c)).reverse = b := by
  have front : ∀ x ∈ b.reverse, decide (x ≠ c) = true := by
    intro x mem
    apply decide_eq_true
    rintro rfl
    exact clean (List.mem_reverse.mp mem)
  rw [List.reverse_append, List.reverse_cons, List.append_assoc, List.takeWhile_append_of_pos front,
    List.singleton_append, List.takeWhile_cons_of_neg (by simp), List.append_nil,
    List.reverse_reverse]

theorem rsplitOnce_append {c : Char} {a b : Text} (clean : c ∉ b) :
    rsplitOnce c (a ++ c :: b) = some (a, b) := by
  rw [rsplitOnce, takeWhile_reverse clean, if_neg]
  · have rest : (a ++ c :: b).length - b.length - 1 = a.length := by
      rw [List.length_append, List.length_cons]
      omega
    rw [rest, List.take_left]
  · rw [List.length_append, List.length_cons]
    omega

theorem rsplitOnce_none {c : Char} {t : Text} (clean : c ∉ t) : rsplitOnce c t = none := by
  have all : t.reverse.takeWhile (· ≠ c) = t.reverse := by
    rw [List.takeWhile_eq_self_iff]
    intro x mem
    apply decide_eq_true
    rintro rfl
    exact clean (List.mem_reverse.mp mem)
  rw [rsplitOnce, all, List.reverse_reverse, if_pos rfl]

/-- What a sweep may delete is a part file's name. -/
theorem PartLike.of_isOwnPart (own : isOwnPart dir key = true) : PartLike dir key := by
  rw [isOwnPart] at own
  split at own
  · cases own
  · next rest is =>
      obtain ⟨direct, named⟩ := of_decide_eq_true own
      rw [stripPrefix_eq_some] at is
      subst is
      rw [isPartObject, rsplitOnce_none direct] at named
      simp only [Option.map_none, Option.getD_none] at named
      split at named
      · cases named
      · next r found =>
          obtain ⟨front, is, cut⟩ := Option.bind_eq_some_iff.mp found
          rw [stripPrefix_eq_some] at is
          rw [stripSuffix_eq_some] at cut
          subst is cut
          refine ⟨r, by rw [List.append_assoc], fun mem => direct ?_⟩
          exact List.mem_append_right _ (List.mem_append_left _ mem)

/-! ## Names of a generation -/

theorem isDigit_padded : ∀ c ∈ padded n, isDigit c = true := by
  intro c mem
  obtain zero | digit := List.mem_append.mp mem
  · rw [List.eq_of_mem_replicate zero]
    rfl
  · have is : c.isDigit = true := Nat.isDigit_of_mem_toDigits (by decide) (by decide) digit
    rw [Char.isDigit, Bool.and_eq_true, decide_eq_true_iff, decide_eq_true_iff] at is
    exact decide_eq_true is

theorem ofDigitChars_padded : Nat.ofDigitChars 10 (padded n) 0 = n := by
  have zeros (k : Nat) : Nat.ofDigitChars 10 (List.replicate k '0') 0 = 0 := by
    induction k with
    | zero => rfl
    | succ k ih =>
        rw [List.replicate_succ, Nat.ofDigitChars_cons]
        exact ih
  rw [padded, Nat.ofDigitChars_append, zeros, Nat.ofDigitChars_ten_toDigits]

theorem padded_inj (same : padded i = padded j) : i = j := by
  rw [← ofDigitChars_padded (n := i), same, ofDigitChars_padded]

theorem length_padded (fits : n < 100000) : (padded n).length = 5 := by
  have short : (Nat.toDigits 10 n).length ≤ 5 :=
    (Nat.length_toDigits_le_iff (by decide) (by decide)).mpr fits
  rw [padded, List.length_append, List.length_replicate]
  omega

theorem ascii_of_isDigit {c : Char} (is : isDigit c = true) : c.toNat < 128 := by
  have range := of_decide_eq_true is
  omega

theorem ascii_of_isLowerOrDigit {c : Char} (is : isLowerOrDigit c = true) : c.toNat < 128 := by
  have range := of_decide_eq_true is
  omega

theorem isLowerOrDigit_digit36 {d : Nat} (is : d < 36) : isLowerOrDigit (digit36 d) = true := by
  have all : ∀ d < 36, isLowerOrDigit (digit36 d) = true := by decide
  exact all d is

theorem isLowerOrDigit_base36 : ∀ c ∈ base36 n, isLowerOrDigit c = true := by
  induction n using base36.induct with
  | case1 n small =>
      intro c mem
      rw [base36, if_pos small, List.mem_singleton] at mem
      rw [mem]
      exact isLowerOrDigit_digit36 small
  | case2 n large ih =>
      intro c mem
      rw [base36, if_neg large, List.mem_append, List.mem_singleton] at mem
      obtain front | rfl := mem
      · exact ih c front
      · exact isLowerOrDigit_digit36 (Nat.mod_lt _ (by decide))

theorem length_base36 (fits : n < 36 ^ (w + 1)) : (base36 n).length ≤ w + 1 := by
  induction w generalizing n with
  | zero =>
      have small : n < 36 := fits
      rw [base36, if_pos small]
      exact Nat.le_refl 1
  | succ w ih =>
      rw [base36]
      split_ifs with small
      · exact Nat.succ_le_succ (Nat.zero_le _)
      · rw [List.length_append, List.length_singleton]
        apply Nat.succ_le_succ
        apply ih
        rw [Nat.div_lt_iff_lt_mul (by decide)]
        exact fits

/-- A generation as a publish draws it. -/
def IsGeneration (gen : Text) : Prop :=
  ∃ ms rnd, ms < 2 ^ 64 ∧ rnd < 2 ^ 32 ∧ gen = partGeneration ms rnd

theorem IsGeneration.plain (drawn : IsGeneration gen) : ∀ c ∈ gen, isLowerOrDigit c = true := by
  obtain ⟨ms, rnd, -, -, rfl⟩ := drawn
  intro c mem
  obtain front | back := List.mem_append.mp mem
  · exact isLowerOrDigit_base36 c front
  · exact isLowerOrDigit_base36 c back

theorem IsGeneration.length (drawn : IsGeneration gen) : gen.length ≤ 20 := by
  obtain ⟨ms, rnd, time, random, rfl⟩ := drawn
  have front : (base36 ms).length ≤ 13 := length_base36 (Nat.lt_of_lt_of_le time (by decide))
  have back : (base36 rnd).length ≤ 7 := length_base36 (Nat.lt_of_lt_of_le random (by decide))
  rw [partGeneration, List.length_append]
  omega

theorem not_mem_of_digits {c : Char} {t : Text} (digits : ∀ c ∈ t, isDigit c = true)
    (other : isDigit c = false) : c ∉ t := by
  intro mem
  rw [digits c mem] at other
  cases other

theorem IsGeneration.not_mem {c : Char} (drawn : IsGeneration gen)
    (other : isLowerOrDigit c = false) : c ∉ gen := by
  intro mem
  rw [drawn.plain c mem] at other
  cases other

theorem partName_like (drawn : IsGeneration gen) : PartLike dir (partName dir gen i) := by
  refine ⟨gen ++ '-' :: padded i, ?_, ?_⟩
  · simp [partName]
  · intro mem
    rw [List.mem_append, List.mem_cons] at mem
    obtain inside | wrong | inside := mem
    · exact drawn.not_mem rfl inside
    · cases wrong
    · exact not_mem_of_digits isDigit_padded rfl inside

theorem partName_inj (same : partName dir gen i = partName dir gen j) : i = j := by
  apply padded_inj
  simpa [partName] using same

/-- Up to a hundred thousand parts, a later sweep finds every part of a publish. -/
theorem isOwnPart_partName (drawn : IsGeneration gen) (few : i < 100000) :
    isOwnPart dir (partName dir gen i) = true := by
  have digits : size (padded i) = 5 := by
    rw [size_ascii fun c mem => ascii_of_isDigit (isDigit_padded c mem), length_padded few]
  have short : size gen ≤ 32 := by
    rw [size_ascii fun c mem => ascii_of_isLowerOrDigit (drawn.plain c mem)]
    exact Nat.le_trans drawn.length (by decide)
  have like : PartLike dir (partName dir gen i) := partName_like drawn
  obtain ⟨mid, is, direct⟩ := like
  rw [isOwnPart, partName, stripPrefix_eq_some.mpr rfl]
  apply decide_eq_true
  have flat : '/' ∉ "part-".toList ++ gen ++ '-' :: padded i ++ ".parquet".toList := by
    rw [List.append_cancel_left is]
    intro mem
    rw [List.mem_append, List.mem_append] at mem
    obtain (wrong | inside) | wrong := mem
    · revert wrong
      decide
    · exact direct inside
    · revert wrong
      decide
  refine ⟨flat, ?_⟩
  rw [isPartObject, rsplitOnce_none flat]
  have front : stripPrefix ("part-".toList ++ gen ++ '-' :: padded i ++ ".parquet".toList)
      "part-".toList = some (gen ++ '-' :: padded i ++ ".parquet".toList) := by
    rw [stripPrefix_eq_some]
    simp
  have back : stripSuffix (gen ++ '-' :: padded i ++ ".parquet".toList) ".parquet".toList =
      some (gen ++ '-' :: padded i) := stripSuffix_eq_some.mpr rfl
  have split : rsplitOnce '-' (gen ++ '-' :: padded i) = some (gen, padded i) :=
    rsplitOnce_append (not_mem_of_digits isDigit_padded rfl)
  simp only [Option.map_none, Option.getD_none, front, Option.bind_some, back, split,
    Option.getD_some]
  apply decide_eq_true
  exact ⟨digits, List.all_eq_true.mpr isDigit_padded, short, List.all_eq_true.mpr drawn.plain⟩

end Apitap.Publish
