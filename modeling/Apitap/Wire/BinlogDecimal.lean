import Apitap.Wire.BinlogCell
import Mathlib.Data.List.TakeWhile
import Mathlib.Tactic.Linarith

/-!
# DECIMAL, packed and decoded

A DECIMAL(p, s) value is a number of units of its last place. A server packs the digits on
either side of the point in groups of nine with the odd ones at the far ends, complements
the bytes of a negative value and turns the top bit. Decoding gives the value's text back.
-/

namespace Apitap.Rows

open Foundation Decimal
open Copy (be fromBe length_be fromBe_be)

/-- A value of a DECIMAL column, in units of its last place. -/
structure Fixed where
  precision : Nat
  scale : Nat
  units : Int
  positive : 0 < precision
  precision_le : precision ≤ 65
  scale_le : scale ≤ 30
  scale_precision : scale ≤ precision
  fits : units.natAbs < 10 ^ precision

namespace Fixed

variable (x : Fixed)

def int : Nat := x.units.natAbs / 10 ^ x.scale

def frac : Nat := x.units.natAbs % 10 ^ x.scale

def neg : Bool := x.units < 0

/-- Its text: plain integer digits, and as many fraction digits as the scale. -/
def text : Bytes := Decimal.text x.neg (itoa x.int) (Radix.digits 10 x.scale x.frac)

def intDigits : Nat := x.precision - x.scale

/-- The full groups before the point. -/
def intGroups : List Nat := Radix.digits (10 ^ 9) (x.intDigits / 9) x.int

/-- What is before them. -/
def intRest : Nat := x.int / (10 ^ 9) ^ (x.intDigits / 9)

/-- The full groups after the point. -/
def fracGroups : List Nat := Radix.digits (10 ^ 9) (x.scale / 9) (x.frac / 10 ^ (x.scale % 9))

/-- What is after them. -/
def fracRest : Nat := x.frac % 10 ^ (x.scale % 9)

/-- The groups as bytes, without the sign. -/
def groups : Bytes :=
  be (bytesFor (x.intDigits % 9)) x.intRest ++ (x.intGroups.flatMap (be 4) ++
    (x.fracGroups.flatMap (be 4) ++ be (bytesFor (x.scale % 9)) x.fracRest))

/-- The top bit of the first byte turned. -/
def turn : Bytes → Bytes
  | [] => []
  | first :: rest => (first ^^^ 0x80) :: rest

/-- The packed form. -/
def packed : Bytes := turn (if x.neg then x.groups.map (~~~ ·) else x.groups)

end Fixed

/-! ## Groups of digits -/

theorem pushPadded_eq {w v : Nat} (fits : v < 10 ^ w) :
    pushPadded w v = .ok (ascii (Radix.digits 10 w v)) := by
  induction w generalizing v with
  | zero => rfl
  | succ w ih =>
      have digit : v / 10 ^ w < 10 := Nat.div_lt_of_lt_mul (by rwa [pow_succ] at fits)
      have byte : v / 10 ^ w % 256 = v / 10 ^ w := Nat.mod_eq_of_lt (by omega)
      rw [pushPadded, byte, if_neg (by omega), ih (Nat.mod_lt _ (by positivity)),
        Radix.digits_front (by decide) fits]
      rfl

/-- Digits from the first one that is not zero on. -/
def significant (ds : List Nat) : List Nat := ds.dropWhile (· == 0)

theorem significant_append (u v : List Nat) :
    significant (u ++ v) = if significant u = [] then significant v else significant u ++ v := by
  by_cases none : significant u = []
  · rw [if_pos none, significant, List.dropWhile_append, ← significant, none]
    rfl
  · rw [if_neg none, significant, List.dropWhile_append, ← significant]
    exact if_neg (by rwa [List.isEmpty_iff])

theorem ascii_eq_nil {ds : List Nat} : ascii ds = [] ↔ ds = [] := List.map_eq_nil_iff

/-- A first group is shown by its significant digits. -/
theorem firstGroup_eq {w v : Nat} (fits : v < 10 ^ w) :
    firstGroup v = ascii (significant (Radix.digits 10 w v)) := by
  have plain := plain_digits fits
  rw [firstGroup]
  split
  case isTrue nonzero =>
      rw [← plain, Decimal.plain, significant]
      split
      case h_1 none =>
          obtain ⟨d, d_mem, other⟩ := digits_ne_zero fits nonzero
          have all := List.dropWhile_eq_nil_iff.mp none d d_mem
          exact absurd (by simpa using all) other
      case h_2 some => rw [some]
  case isFalse zero =>
      obtain rfl : v = 0 := not_not.mp zero
      rw [digits_zero, significant, List.dropWhile_replicate]
      rfl

theorem fullGroups_reads {gs : List Nat} (within : ∀ g ∈ gs, g < 10 ^ 9) (ds : List Nat) :
    (fullGroups gs.length (ascii (significant ds))).Reads (gs.flatMap (be 4))
      (ascii (significant (ds ++ gs.flatMap (Radix.digits 10 9)))) := by
  induction gs generalizing ds with
  | nil =>
      rw [List.flatMap_nil, List.flatMap_nil, List.append_nil]
      exact Cursor.reads_ret _
  | cons g gs ih =>
      have small : g < 10 ^ 9 := within g List.mem_cons_self
      have rest := ih (fun h h_mem => within h (List.mem_cons_of_mem _ h_mem))
        (ds ++ Radix.digits 10 9 g)
      rw [List.append_assoc, ← List.flatMap_cons] at rest
      rw [List.length_cons, fullGroups, List.flatMap_cons (f := be 4)]
      refine (uintBe_reads (lt_trans small (by norm_num))).andThen ?_
      by_cases none : significant ds = []
      · rw [if_neg (not_not.mpr (ascii_eq_nil.mpr none)), firstGroup_eq small]
        rwa [significant_append, if_pos none] at rest
      · rw [if_pos (mt ascii_eq_nil.mp none)]
        rw [significant_append, if_neg none, ascii_append] at rest
        exact (Cursor.reads_lift (pushPadded_eq small)).nil_andThen rest

theorem paddedGroups_reads {gs : List Nat} (within : ∀ g ∈ gs, g < 10 ^ 9) :
    (paddedGroups gs.length).Reads (gs.flatMap (be 4))
      (ascii (gs.flatMap (Radix.digits 10 9))) := by
  induction gs with
  | nil => exact Cursor.reads_ret _
  | cons g gs ih =>
      have small : g < 10 ^ 9 := within g List.mem_cons_self
      have rest := ih fun h h_mem => within h (List.mem_cons_of_mem _ h_mem)
      rw [List.length_cons, paddedGroups, List.flatMap_cons, List.flatMap_cons, ascii_append]
      exact (uintBe_reads (lt_trans small (by norm_num))).andThen
        ((Cursor.reads_lift (pushPadded_eq small)).nil_andThen
          (rest.andThen_nil (Cursor.reads_ret _)))

/-! ## The sign -/

theorem flipped_toNat (b : UInt8) : (b ^^^ 0x80).toNat < 0x80 ↔ 0x80 ≤ b.toNat := by
  have all : ∀ n < 256, n ^^^ 0x80 < 0x80 ↔ 0x80 ≤ n := by decide +kernel
  rw [UInt8.toNat_xor]
  exact all b.toNat b.toNat_lt

theorem flipped_twice (b : UInt8) : b ^^^ 0x80 ^^^ 0x80 = b := by
  rw [UInt8.xor_assoc, UInt8.xor_self, UInt8.xor_zero]

theorem map_not_twice (bs : Bytes) : (bs.map (~~~ ·)).map (~~~ ·) = bs := by
  rw [List.map_map]
  exact (List.map_congr_left fun b _ => UInt8.not_not).trans (List.map_id bs)

/-- Bytes whose first one is below 128 come out of either sign. -/
theorem unsign_turn (neg : Bool) {first : UInt8} (rest : Bytes) (low : first.toNat < 0x80) :
    unsign (Fixed.turn (if neg then (first :: rest).map (~~~ ·) else first :: rest)) =
      .ok (neg, first :: rest) := by
  cases neg with
  | true =>
      have high : 0x80 ≤ (~~~ first).toNat := by
        have size : UInt8.size = 256 := rfl
        rw [UInt8.toNat_not, size]
        omega
      have negative : ((~~~ first) ^^^ 0x80).toNat < 0x80 := (flipped_toNat _).mpr high
      have back := map_not_twice (first :: rest)
      rw [if_pos rfl, List.map_cons, Fixed.turn, unsign]
      simp only [negative, decide_true, if_true, flipped_twice]
      rw [← List.map_cons, back]
  | false =>
      have positive : ¬ (first ^^^ 0x80).toNat < 0x80 := fun low' =>
        absurd ((flipped_toNat _).mp low') (Nat.not_le.mpr low)
      rw [if_neg Bool.false_ne_true, Fixed.turn, unsign]
      simp only [positive, decide_false, Bool.false_eq_true, if_false, flipped_twice]

/-! ## A value read back -/

namespace Fixed

variable {x : Fixed}

theorem bytesFor_fits : ∀ r < 9, 10 ^ r * 2 ≤ 256 ^ bytesFor r ∨ r = 0 := by decide

theorem int_lt : x.int < 10 ^ x.intDigits := by
  have digits : x.intDigits + x.scale = x.precision := Nat.sub_add_cancel x.scale_precision
  refine Nat.div_lt_of_lt_mul ?_
  rw [← pow_add, Nat.add_comm, digits]
  exact x.fits

theorem frac_lt : x.frac < 10 ^ x.scale := Nat.mod_lt _ (by positivity)

theorem intRest_lt : x.intRest < 10 ^ (x.intDigits % 9) := by
  refine Nat.div_lt_of_lt_mul ?_
  rw [← pow_mul, ← pow_add, Nat.div_add_mod]
  exact int_lt

theorem fracRest_lt : x.fracRest < 10 ^ (x.scale % 9) := Nat.mod_lt _ (by positivity)

theorem intGroups_lt : ∀ g ∈ x.intGroups, g < 10 ^ 9 := Radix.digits_lt (by positivity)

theorem fracGroups_lt : ∀ g ∈ x.fracGroups, g < 10 ^ 9 := Radix.digits_lt (by positivity)

/-- All digits before the point, in groups. -/
def intPlaces (x : Fixed) : List Nat :=
  Radix.digits 10 (x.intDigits % 9) x.intRest ++ x.intGroups.flatMap (Radix.digits 10 9)

theorem plain_intPlaces : plain x.intPlaces = itoa x.int := by
  have within : ∀ d ∈ x.intPlaces, d < 10 := by
    intro d d_mem
    rcases List.mem_append.mp d_mem with front | back
    · exact Radix.digits_lt (by decide) d front
    · obtain ⟨g, -, d_mem⟩ := List.mem_flatMap.mp back
      exact Radix.digits_lt (by decide) d d_mem
  have value : Radix.value 10 x.intPlaces = x.int := by
    rw [intPlaces, Radix.value_append, Radix.value_digits_of_lt intRest_lt,
      Radix.value_flatMap intGroups_lt, Radix.length_flatMap, intGroups, Radix.length_digits,
      Radix.value_digits, intRest, pow_mul, Nat.mul_comm]
    exact Nat.div_add_mod _ _
  have fits : x.int < 10 ^ x.intPlaces.length := value ▸ Radix.value_lt within
  rw [← plain_digits fits]
  congr 1
  rw [← value, Radix.digits_value (by decide) within]

theorem fracPlaces :
    x.fracGroups.flatMap (Radix.digits 10 9) ++ Radix.digits 10 (x.scale % 9) x.fracRest =
      Radix.digits 10 x.scale x.frac := by
  have front : x.frac / 10 ^ (x.scale % 9) < (10 ^ 9) ^ (x.scale / 9) := by
    refine Nat.div_lt_of_lt_mul ?_
    rw [← pow_mul, ← pow_add, Nat.add_comm, Nat.div_add_mod]
    exact frac_lt
  refine Radix.eq_of_value (b := 10) (by decide) ?_ (Radix.digits_lt (by decide)) ?_ ?_
  · intro d d_mem
    rcases List.mem_append.mp d_mem with d_mem | back
    · obtain ⟨g, -, d_mem⟩ := List.mem_flatMap.mp d_mem
      exact Radix.digits_lt (by decide) d d_mem
    · exact Radix.digits_lt (by decide) d back
  · rw [List.length_append, Radix.length_flatMap, Radix.length_digits, fracGroups,
      Radix.length_digits, Radix.length_digits, Nat.div_add_mod]
  · rw [Radix.value_append, Radix.value_flatMap fracGroups_lt, fracGroups,
      Radix.value_digits_of_lt front, Radix.length_digits, Radix.value_digits_of_lt fracRest_lt,
      Radix.value_digits_of_lt frac_lt, fracRest, Nat.mul_comm]
    exact Nat.div_add_mod _ _

/-- The digits of a group that is not full, or of none. -/
theorem part_fits {r v : Nat} (odd : r < 9) (fits : v < 10 ^ r) : v < 256 ^ bytesFor r := by
  rcases bytesFor_fits r odd with room | rfl
  · omega
  · exact fits

theorem first_reads :
    (if 0 < x.intDigits % 9 then
      (uintBe (bytesFor (x.intDigits % 9))).andThen fun v => .ret (firstGroup v)
      else .ret [] : Read Bytes).Reads (be (bytesFor (x.intDigits % 9)) x.intRest)
      (ascii (significant (Radix.digits 10 (x.intDigits % 9) x.intRest))) := by
  have odd : x.intDigits % 9 < 9 := Nat.mod_lt _ (by decide)
  split
  case isTrue =>
      rw [← firstGroup_eq intRest_lt]
      exact (uintBe_reads (part_fits odd intRest_lt)).andThen_nil (Cursor.reads_ret _)
  case isFalse none =>
      have zero : x.intDigits % 9 = 0 := Nat.le_zero.mp (Nat.not_lt.mp none)
      rw [zero]
      exact Cursor.reads_ret _

theorem last_reads :
    (if 0 < x.scale % 9 then
      (uintBe (bytesFor (x.scale % 9))).andThen fun v => .lift (pushPadded (x.scale % 9) v)
      else .ret [] : Read Bytes).Reads (be (bytesFor (x.scale % 9)) x.fracRest)
      (ascii (Radix.digits 10 (x.scale % 9) x.fracRest)) := by
  have odd : x.scale % 9 < 9 := Nat.mod_lt _ (by decide)
  split
  case isTrue =>
      exact (uintBe_reads (part_fits odd fracRest_lt)).andThen_nil
        (Cursor.reads_lift (pushPadded_eq fracRest_lt))
  case isFalse none =>
      have zero : x.scale % 9 = 0 := Nat.le_zero.mp (Nat.not_lt.mp none)
      rw [zero]
      exact Cursor.reads_ret _

/-- Plain digits, from the significant ones. -/
theorem plain_eq (ds : List Nat) :
    (if ascii (significant ds) = [] then [48] else ascii (significant ds)) = ascii (plain ds) := by
  rw [plain, significant]
  split
  case isTrue none =>
      rw [ascii_eq_nil.mp none]
      rfl
  case isFalse some =>
      split
      case h_1 none => exact absurd (ascii_eq_nil.mpr none) some
      case h_2 is => rw [is]

/-- The digits of both sides are read as the text without its sign. -/
theorem digits_reads :
    (decimalDigits x.precision x.scale).Reads x.groups
      (Decimal.text false (itoa x.int) (Radix.digits 10 x.scale x.frac)) := by
  have full := fullGroups_reads (intGroups_lt (x := x))
    (Radix.digits 10 (x.intDigits % 9) x.intRest)
  have padded := paddedGroups_reads (fracGroups_lt (x := x))
  rw [intGroups, Radix.length_digits, ← intGroups, ← intPlaces] at full
  rw [fracGroups, Radix.length_digits, ← fracGroups] at padded
  have int : (if ascii (significant x.intPlaces) = [] then [48]
      else ascii (significant x.intPlaces)) = ascii (itoa x.int) := by
    rw [plain_eq, plain_intPlaces]
  rw [decimalDigits, groups]
  refine (first_reads (x := x)).andThen (full.andThen ?_)
  rw [← fracPlaces]
  simp only [int]
  split
  case isTrue some =>
      have shown : Decimal.text false (itoa x.int) (x.fracGroups.flatMap (Radix.digits 10 9) ++
          Radix.digits 10 (x.scale % 9) x.fracRest) =
          ascii (itoa x.int) ++ 46 :: ascii (x.fracGroups.flatMap (Radix.digits 10 9)) ++
            ascii (Radix.digits 10 (x.scale % 9) x.fracRest) := by
        have places : x.fracGroups.flatMap (Radix.digits 10 9) ++
            Radix.digits 10 (x.scale % 9) x.fracRest ≠ [] := by
          rw [fracPlaces]
          refine List.ne_nil_of_length_pos ?_
          rwa [Radix.length_digits]
        rw [Decimal.text, if_neg places, ascii_append]
        simp
      rw [shown]
      exact padded.andThen (last_reads.andThen_nil (Cursor.reads_ret _))
  case isFalse none =>
      have zero : x.scale = 0 := Nat.le_zero.mp (Nat.not_lt.mp none)
      have groups : x.fracGroups = [] := by rw [fracGroups, zero]; rfl
      rw [groups, zero, Decimal.text]
      have rest : be (bytesFor (0 % 9)) x.fracRest = [] := rfl
      have digits : Radix.digits 10 (0 % 9) x.fracRest = [] := rfl
      simp only [List.flatMap_nil, List.nil_append, Bool.false_eq_true, if_false, rest, digits,
        if_true, List.append_nil]
      exact Cursor.reads_ret _

theorem length_groups : x.groups.length = decimalSize x.precision x.scale := by
  have words (gs : List Nat) : (gs.flatMap (be 4)).length = gs.length * 4 := by
    simp [List.length_flatMap]
  rw [groups, List.length_append, List.length_append, List.length_append, length_be, length_be,
    words, words, intGroups, fracGroups, Radix.length_digits, Radix.length_digits, decimalSize,
    intDigits]
  omega

theorem length_packed : x.packed.length = decimalSize x.precision x.scale := by
  have turns (b : Bytes) : (turn b).length = b.length := by
    cases b with
    | nil => rfl
    | cons first rest => rfl
  rw [packed, turns, ← length_groups]
  cases x.neg with
  | true => exact List.length_map _
  | false => rfl

/-- The first byte of a number below half its room leaves the sign bit free. -/
theorem be_front {w v : Nat} (half : v * 2 < 256 ^ (w + 1)) :
    ∃ first rest, be (w + 1) v = first :: rest ∧ first.toNat < 0x80 := by
  have fits : v < 256 ^ (w + 1) := by omega
  have top : v / 256 ^ w < 0x80 := by
    refine Nat.div_lt_of_lt_mul ?_
    rw [pow_succ] at half
    omega
  refine ⟨_, _, by rw [be, Radix.digits_front (by decide) fits]; rfl, ?_⟩
  have code : (UInt8.ofNat (v / 256 ^ w)).toNat = v / 256 ^ w :=
    UInt8.toNat_ofNat_of_lt (show v / 256 ^ w < 256 by omega)
  rw [code]
  exact top

/-- The sign bit of a value's groups is free. -/
theorem groups_front : ∃ first rest, x.groups = first :: rest ∧ first.toNat < 0x80 := by
  have part {r v : Nat} (odd : r < 9) (some : 0 < r) (fits : v < 10 ^ r) (more : Bytes) :
      ∃ first rest, be (bytesFor r) v ++ more = first :: rest ∧ first.toNat < 0x80 := by
    have room : 10 ^ r * 2 ≤ 256 ^ bytesFor r := (bytesFor_fits r odd).resolve_right (by omega)
    obtain ⟨w, width⟩ : ∃ w, bytesFor r = w + 1 := by
      refine Nat.exists_eq_succ_of_ne_zero fun none => ?_
      rw [none] at room
      have one : 1 ≤ 10 ^ r := Nat.one_le_pow _ _ (by decide)
      omega
    rw [width] at room ⊢
    obtain ⟨first, rest, is, free⟩ := be_front (w := w) (v := v) (by omega)
    exact ⟨first, rest ++ more, by rw [is]; rfl, free⟩
  have full {gs : List Nat} (some : gs ≠ []) (small : ∀ g ∈ gs, g < 10 ^ 9) (more : Bytes) :
      ∃ first rest, gs.flatMap (be 4) ++ more = first :: rest ∧ first.toNat < 0x80 := by
    obtain ⟨g, gs, rfl⟩ := List.exists_cons_of_ne_nil some
    have fits := small g List.mem_cons_self
    obtain ⟨first, rest, is, free⟩ := be_front (w := 3) (v := g) (by omega)
    exact ⟨first, rest ++ (gs.flatMap (be 4) ++ more), by
      rw [List.flatMap_cons, is, List.append_assoc]; rfl, free⟩
  have digits : x.intDigits + x.scale = x.precision := Nat.sub_add_cancel x.scale_precision
  have positive := x.positive
  rw [groups]
  by_cases odd : 0 < x.intDigits % 9
  · exact part (Nat.mod_lt _ (by decide)) odd intRest_lt _
  · have none : x.intDigits % 9 = 0 := by omega
    rw [none]
    by_cases some : 0 < x.intDigits / 9
    · have groups : x.intGroups ≠ [] := by
        refine List.ne_nil_of_length_pos ?_
        rwa [intGroups, Radix.length_digits]
      exact full groups intGroups_lt _
    · have empty : x.intGroups = [] := by
        rw [intGroups, Nat.le_zero.mp (Nat.not_lt.mp some)]
        rfl
      rw [empty]
      by_cases more : 0 < x.scale / 9
      · have groups : x.fracGroups ≠ [] := by
          refine List.ne_nil_of_length_pos ?_
          rwa [fracGroups, Radix.length_digits]
        exact full groups fracGroups_lt _
      · have empty : x.fracGroups = [] := by
          rw [fracGroups, Nat.le_zero.mp (Nat.not_lt.mp more)]
          rfl
        have last := part (r := x.scale % 9) (Nat.mod_lt _ (by decide)) (by omega) fracRest_lt []
        rw [List.append_nil] at last
        rw [empty]
        exact last

/-- A value is read back as its text, from exactly its bytes. -/
theorem decimal_reads : (decodeDecimal x.precision x.scale).Reads x.packed x.text := by
  have legal : ¬ (x.precision = 0 ∨ 65 < x.precision ∨ 30 < x.scale ∨ x.precision < x.scale) := by
    have positive := x.positive
    have precision := x.precision_le
    have scale := x.scale_le
    have both := x.scale_precision
    omega
  obtain ⟨first, rest, groups, free⟩ := groups_front (x := x)
  have sign : unsign x.packed = .ok (x.neg, x.groups) := by
    rw [packed, groups]
    exact unsign_turn x.neg rest free
  have digits := digits_reads (x := x) []
  rw [List.append_nil] at digits
  rw [decodeDecimal, if_neg legal]
  refine (Cursor.reads_take _ length_packed).andThen_nil
    ((Cursor.reads_lift sign).andThen_nil (Cursor.reads_lift ?_))
  rw [digits, Except.map, text]
  cases x.neg with
  | true => rfl
  | false => rfl

end Fixed

end Apitap.Rows
