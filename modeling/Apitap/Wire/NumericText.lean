import Apitap.Wire.MyTsv
import Apitap.Wire.PgBinDec

/-!
# The text of a numeric

Both readers print the groups in a window that reaches from the point's left to the last
place the display scale shows; the stored groups fill it up to zero groups at either end. So
both print the same digits, and these are the value's.
-/

namespace Apitap.Copy

open Foundation Decimal

namespace Numeric

/-- Groups as decimal digits. -/
def unpack (gs : List Nat) : List Nat := gs.flatMap (Radix.digits 10 4)

variable (x : Numeric)

/-- A digit group by its place from the first one, zero outside. -/
def group (i : Int) : Nat := if 0 ≤ i then x.groups.getD i.toNat 0 else 0

/-- How many groups the display scale reaches into. -/
def fracCount : Nat := (x.dscale + 3) / 4

/-- The groups down to weight 0; at least the one at weight 0. -/
def intGroups : List Nat :=
  if x.weight < 0 then [0] else (List.range (x.weight.toNat + 1)).map fun i : Nat => x.group i

/-- The groups the display scale reaches into. -/
def fracGroups : List Nat := (List.range x.fracCount).map fun j : Nat => x.group (x.weight + 1 + j)

def intDigits : List Nat := Decimal.plain (unpack x.intGroups)

def fracDigits : List Nat := (unpack x.fracGroups).take x.dscale

/-- The text of a numeric. -/
def shown : Bytes := text x.neg x.intDigits x.fracDigits

variable {x}

theorem group_lt' (i : Int) : x.group i < 10000 := by
  rw [group]
  split
  case isTrue =>
      rw [List.getD_eq_getElem?_getD]
      cases found : x.groups[i.toNat]? with
      | none => decide
      | some d => exact x.group_lt d (List.mem_of_getElem? found)
  case isFalse => decide

theorem unpack_cons (g : Nat) (gs : List Nat) :
    unpack (g :: gs) = Radix.digits 10 4 g ++ unpack gs := rfl

theorem length_unpack (gs : List Nat) : (unpack gs).length = 4 * gs.length :=
  Radix.length_flatMap gs

theorem unpack_lt (gs : List Nat) : ∀ d ∈ unpack gs, d < 10 := by
  intro d d_mem
  obtain ⟨g, -, d_mem⟩ := List.mem_flatMap.mp d_mem
  exact Radix.digits_lt (by decide) d d_mem

theorem value_unpack {gs : List Nat} (within : ∀ g ∈ gs, g < 10000) :
    Radix.value 10 (unpack gs) = Radix.value 10000 gs := Radix.value_flatMap (k := 4) within

theorem groups_eq (f : Bytes) (n : Nat) :
    Copy.groups f n = (List.range n).map fun i => word f (8 + 2 * i) := by
  induction n with
  | zero => rfl
  | succ n ih => rw [Copy.groups, ih, List.range_succ, List.map_append, List.map_singleton]

theorem word_group {i : Nat} (stored : i < x.groups.length) :
    word x.bytes (8 + 2 * i) = x.group i := by
  have all := x.groups_bytes
  rw [groups_eq] at all
  have here : x.groups[i]? = some (word x.bytes (8 + 2 * i)) := by
    rw [← all, List.getElem?_map, List.getElem?_range stored, Option.map_some]
  rw [group, if_pos (Int.natCast_nonneg i), Int.toNat_natCast, List.getD_eq_getElem?_getD, here,
    Option.getD_some]

theorem group_past {i : Nat} (past : x.groups.length ≤ i) : x.group i = 0 := by
  rw [group, if_pos (Int.natCast_nonneg i), Int.toNat_natCast, List.getD_eq_getElem?_getD,
    List.getElem?_eq_none past, Option.getD_none]

theorem group_neg {i : Int} (below : i < 0) : x.group i = 0 := if_neg (Int.not_le.mpr below)

/-- Only a zero has a zero first group. -/
theorem weight_of_group_zero (first : x.group 0 = 0) : x.groups = [] ∧ x.weight = 0 := by
  have none : x.groups = [] := by
    cases is : x.groups with
    | nil => rfl
    | cons g gs =>
        have head := x.head_ne
        rw [group, if_pos (Int.le_refl 0), is] at first
        rw [is] at head
        exact absurd (congrArg some first) head
  exact ⟨none, (x.zero none).2⟩

/-- The first group unpadded, the others in four digits. -/
theorem intDigits_eq (above : 0 ≤ x.weight) :
    x.intDigits = itoa (x.group 0) ++
      (List.range x.weight.toNat).flatMap fun i => Radix.digits 10 4 (x.group (i + 1 : Nat)) := by
  have first : x.group 0 < 10 ^ 4 := group_lt' 0
  rw [intDigits, intGroups, if_neg (Int.not_lt.mpr above), List.range_succ_eq_map, List.map_cons,
    unpack_cons, List.map_map, unpack, List.flatMap_map]
  by_cases zero : x.group 0 = 0
  · have none : x.weight.toNat = 0 := by rw [(weight_of_group_zero zero).2]; rfl
    rw [none, List.range_zero, List.flatMap_nil, List.flatMap_nil, List.append_nil, List.append_nil]
    exact plain_digits first
  · rw [← plain_digits first]
    exact plain_append (digits_ne_zero first zero)

theorem intDigits_of_neg (below : x.weight < 0) : x.intDigits = [0] := by
  rw [intDigits, intGroups, if_pos below]
  rfl

/-! ## The replication stream's reader -/

theorem four_eq {g : Nat} (small : g < 10000) : BinDec.four g = Radix.digits 10 4 g := by
  simp only [BinDec.four, Radix.digits, List.nil_append, List.cons_append,
    List.cons.injEq, and_true]
  omega

/-- The digits picked one by one are those of the groups in order. -/
theorem digitOf_eq {g : Nat → Nat} (small : ∀ j, g j < 10000) (n : Nat) :
    ((List.range (4 * n)).map fun i => BinDec.digitOf (g (i / 4)) (i % 4)) =
      unpack ((List.range n).map g) := by
  induction n with
  | zero => rfl
  | succ n ih =>
      have quotients : (4 * n + 1) / 4 = n ∧ (4 * n + 2) / 4 = n ∧ (4 * n + 3) / 4 = n := by omega
      have rests : (4 * n + 1) % 4 = 1 ∧ (4 * n + 2) % 4 = 2 ∧ (4 * n + 3) % 4 = 3 := by omega
      rw [Nat.mul_succ, List.range_succ, List.range_succ, List.range_succ, List.range_succ,
        List.range_succ]
      simp only [List.map_append, List.map_singleton, ih, unpack, List.flatMap_append,
        List.flatMap_singleton, List.append_assoc]
      rw [← four_eq (small n)]
      simp [BinDec.four, BinDec.digitOf, quotients, rests]

theorem bindec_dig (i : Int) : BinDec.dig x.bytes x.groups.length i = x.group i := by
  rw [BinDec.dig]
  by_cases below : i < 0
  · rw [if_neg (fun both => absurd both.1 (Int.not_le.mpr below)), group_neg below]
  · obtain ⟨n, rfl⟩ := Int.eq_ofNat_of_zero_le (Int.not_lt.mp below)
    rw [Int.toNat_natCast]
    by_cases stored : n < x.groups.length
    · rw [if_pos ⟨Int.natCast_nonneg n, stored⟩, word_group stored]
    · rw [if_neg (fun both => stored both.2), group_past (Nat.not_lt.mp stored)]

/-- The fraction digits one by one. -/
theorem bindec_fracDigits :
    ((List.range x.dscale).map fun i =>
      BinDec.digitOf (x.group (x.weight + 1 + (i / 4 : Nat))) (i % 4)) = x.fracDigits := by
  have all := digitOf_eq (g := fun j => x.group (x.weight + 1 + j)) (fun _ => group_lt' _)
    x.fracCount
  have enough : x.dscale ≤ 4 * x.fracCount := by
    rw [fracCount]
    omega
  have front := congrArg (List.take x.dscale) all
  rw [← List.map_take, List.take_range, Nat.min_eq_left enough] at front
  exact front

theorem length_fracDigits : x.fracDigits.length = x.dscale := by
  rw [← bindec_fracDigits, List.length_map, List.length_range]

/-- The point and the digits after it, where the scale has any. -/
theorem frac_shown :
    (if 0 < x.dscale then 46 :: ascii x.fracDigits else []) =
      if x.fracDigits = [] then [] else (46 : UInt8) :: ascii x.fracDigits := by
  have len := length_fracDigits (x := x)
  by_cases none : x.fracDigits = []
  · rw [none, List.length_nil] at len
    rw [if_pos none, if_neg (by omega)]
  · have some := List.length_pos_of_ne_nil none
    rw [if_neg none, if_pos (by omega)]

theorem bindec_numeric : BinDec.numeric x.bytes = .ok x.shown := by
  have long : ¬ x.bytes.length < 8 := by rw [length_bytes]; omega
  have room : ¬ x.bytes.length < 8 + 2 * x.groups.length := by rw [length_bytes]; omega
  have scale : x.dscale % 2 ^ 14 = x.dscale := Nat.mod_eq_of_lt x.dscale_lt
  have int : (if x.weight < 0 then [0]
      else itoa (x.group 0) ++
        (List.range x.weight.toNat).flatMap fun d : Nat => BinDec.four (x.group (d + 1))) =
      x.intDigits := by
    split
    case isTrue below => rw [intDigits_of_neg below]
    case isFalse above =>
        rw [intDigits_eq (Int.not_lt.mp above)]
        congr 2
        funext d
        rw [four_eq (group_lt' _)]
        rfl
  rw [BinDec.numeric, if_neg long, word_count, word_weight, word_sign, word_dscale,
    i16_weightWord, scale]
  simp only [bindec_dig, int, bindec_fracDigits, frac_shown, if_neg room]
  cases neg : x.neg with
  | true => simp [shown, text, neg]
  | false => simp [shown, text, neg]

/-! ## The text transcoder -/

/-- The group a turn of the fraction loop takes, and where the next one takes its own. -/
theorem turn_group {place : Int} {gi : Nat}
    (at_ : gi = place.toNat ∨ (x.groups.length ≤ gi ∧ (x.groups.length : Int) ≤ place)) :
    (if 0 < (-place).toNat then 0
      else if gi < x.groups.length then word x.bytes (8 + gi * 2) else 0) = x.group place ∧
    ((if 0 < (-place).toNat then gi else if gi < x.groups.length then gi + 1 else gi) =
        (place + 1).toNat ∨
      (x.groups.length ≤ (if 0 < (-place).toNat then gi
        else if gi < x.groups.length then gi + 1 else gi) ∧
        (x.groups.length : Int) ≤ place + 1)) := by
  by_cases below : place < 0
  · have zeros : 0 < (-place).toNat := by omega
    rw [if_pos zeros, if_pos zeros, group_neg below]
    exact ⟨rfl, .inl (by omega)⟩
  · have zeros : ¬ 0 < (-place).toNat := by omega
    obtain ⟨n, rfl⟩ := Int.eq_ofNat_of_zero_le (Int.not_lt.mp below)
    rw [if_neg zeros, if_neg zeros]
    by_cases stored : gi < x.groups.length
    · obtain rfl : gi = n := by omega
      rw [if_pos stored, if_pos stored, Nat.mul_comm, word_group stored]
      exact ⟨rfl, .inl (by omega)⟩
    · rw [if_neg stored, if_neg stored, group_past (by omega)]
      exact ⟨rfl, .inr ⟨by omega, by omega⟩⟩

/-- The fraction loop from a place on. -/
theorem fraction_eq {k fuel written gi : Nat} {place : Int} (turns : x.dscale - written ≤ fuel)
    (enough : x.dscale - written ≤ 4 * k)
    (at_ : gi = place.toNat ∨ (x.groups.length ≤ gi ∧ (x.groups.length : Int) ≤ place)) :
    MyTsv.fraction x.bytes x.groups.length x.dscale fuel written gi (-place).toNat =
      (unpack ((List.range k).map fun i : Nat => x.group (place + i))).take
        (x.dscale - written) := by
  induction fuel generalizing k written gi place with
  | zero => rw [Nat.le_zero.mp turns, MyTsv.fraction, List.take_zero]
  | succ fuel ih =>
      rw [MyTsv.fraction]
      split
      case isTrue more =>
          obtain ⟨k, rfl⟩ : ∃ n, k = n + 1 := ⟨k - 1, by omega⟩
          obtain ⟨taken, next⟩ := turn_group at_
          have rest := ih
            (show x.dscale - (written + min (x.dscale - written) 4) ≤ fuel by omega)
            (show x.dscale - (written + min (x.dscale - written) 4) ≤ 4 * k by omega) next
          have zeros : (-place).toNat - 1 = (-(place + 1)).toNat := by omega
          have left : x.dscale - (written + min (x.dscale - written) 4) =
              x.dscale - written - 4 := by omega
          have shift : ((fun i : Nat => x.group (place + i)) ∘ Nat.succ) =
              fun i : Nat => x.group (place + 1 + i) := by
            funext i
            show x.group (place + (i + 1 : Nat)) = _
            congr 1
            omega
          have first : x.group (place + (0 : Nat)) = x.group place := by
            rw [Int.natCast_zero, Int.add_zero]
          simp only [taken, zeros, rest, left]
          rw [List.range_succ_eq_map, List.map_cons, List.map_map, shift, unpack_cons,
            List.take_append, Radix.length_digits, MyTsv.push4, first]
          congr 1
          rw [List.take_eq_take_iff, Radix.length_digits]
          omega
      case isFalse done =>
          rw [Nat.sub_eq_zero_of_le (Nat.not_lt.mp done), List.take_zero]

theorem tsv_integer :
    MyTsv.integer x.bytes x.groups.length x.weight = x.intDigits := by
  have group (gi : Nat) : (if gi < x.groups.length then word x.bytes (8 + gi * 2) else 0) =
      x.group gi := by
    split
    case isTrue stored => rw [Nat.mul_comm, word_group stored]
    case isFalse past => rw [group_past (Nat.not_lt.mp past)]
  rw [MyTsv.integer]
  split
  case isTrue plain =>
      rcases plain with below | none
      · rw [intDigits_of_neg below]
      · have empty : x.groups = [] := List.length_eq_zero_iff.mp none
        have zero : x.group 0 = 0 := group_past (i := 0) (by omega)
        rw [intDigits_eq (by rw [(x.zero empty).2]), (x.zero empty).2, zero]
        rfl
  case isFalse both =>
      rw [not_or] at both
      rw [intDigits_eq (Int.not_lt.mp both.1), List.range_succ_eq_map, List.flatMap_cons]
      simp only [group, if_true, List.flatMap_map, Nat.succ_ne_zero, if_false]
      rfl

theorem tsv_numeric (name : String) : MyTsv.renderNumeric name x.bytes = .ok x.shown := by
  have long : ¬ x.bytes.length < 8 := by rw [length_bytes]; omega
  have room : ¬ x.bytes.length < 8 + x.groups.length * 2 := by rw [length_bytes]; omega
  have count : i16 x.groups.length = x.groups.length := by
    have small := x.count_lt
    rw [i16_eq (by omega), if_pos small]
  have digits := fraction_eq (x := x) (k := x.fracCount)
    (show x.dscale - 0 ≤ x.dscale from Nat.sub_le _ _) (by rw [fracCount]; omega)
    (.inl (rfl : (x.weight + 1).toNat = (x.weight + 1).toNat))
  rw [Nat.sub_zero, ← fracGroups, ← fracDigits] at digits
  rw [MyTsv.renderNumeric, if_neg long, word_count, word_weight, word_sign, word_dscale,
    i16_weightWord, count]
  have finite : ¬ ((if x.neg then 0x4000 else 0x0000) ≠ 0x0000 ∧
      (if x.neg then 0x4000 else 0x0000) ≠ 0x4000) := by
    cases x.neg with
    | true => decide
    | false => decide
  simp only [Int.toNat_natCast, if_neg room, tsv_integer, digits, frac_shown, if_neg finite]
  rw [if_neg (Int.not_lt.mpr (Int.natCast_nonneg _))]
  cases neg : x.neg with
  | true => simp [shown, text, neg]
  | false => simp [shown, text, neg]

/-! ## The window of groups -/

theorem map_group : ((List.range x.groups.length).map fun i : Nat => x.group i) = x.groups := by
  have words := x.groups_bytes
  rw [groups_eq] at words
  refine (List.map_congr_left fun i i_mem => ?_).trans words
  exact (word_group (List.mem_range.mp i_mem)).symm

/-- A run of places with no stored group has zero groups. -/
theorem map_group_zero {a : Int} {n : Nat} (none : ∀ i < n, x.group (a + i) = 0) :
    ((List.range n).map fun i : Nat => x.group (a + i)) = List.replicate n 0 := by
  rw [List.eq_replicate_iff, List.length_map, List.length_range]
  refine ⟨rfl, fun d d_mem => ?_⟩
  obtain ⟨i, i_mem, rfl⟩ := List.mem_map.mp d_mem
  exact none i (List.mem_range.mp i_mem)

/-- A window over all stored groups has them between zero groups. -/
theorem window_eq (z t : Nat) :
    ((List.range (z + (x.groups.length + t))).map fun i : Nat => x.group (-(z : Int) + i)) =
      List.replicate z 0 ++ (x.groups ++ List.replicate t 0) := by
  have before : ((List.range z).map fun i : Nat => x.group (-(z : Int) + i)) =
      List.replicate z 0 := map_group_zero fun i lt => group_neg (by omega)
  have after : ((List.range t).map fun i : Nat => x.group ((x.groups.length : Int) + i)) =
      List.replicate t 0 := by
    refine map_group_zero fun i _ => ?_
    exact_mod_cast group_past (x := x) (Nat.le_add_right x.groups.length i)
  rw [List.range_add, List.map_append, List.map_map, before, List.range_add, List.map_append,
    List.map_map, ← after]
  congr 2
  · refine Eq.trans (List.map_congr_left fun i _ => ?_) map_group
    show x.group (-(z : Int) + (z + i : Nat)) = x.group i
    congr 1
    omega
  · refine List.map_congr_left fun i _ => ?_
    show x.group (-(z : Int) + (z + (x.groups.length + i) : Nat)) = _
    congr 1
    omega

/-- Zero groups before the stored ones, where the weight is negative. -/
def before (x : Numeric) : Nat := (-x.weight).toNat

/-- No stored group lies past the ones the display scale reaches into. -/
theorem length_le : (x.groups.length : Int) ≤ x.weight + 1 + x.fracCount := by
  by_contra beyond
  have positive : x.groups ≠ [] := by
    intro none
    rw [none, (x.zero none).2, fracCount] at beyond
    simp at beyond
    omega
  obtain ⟨gs, g, is⟩ := List.eq_nil_or_concat x.groups |>.resolve_left positive
  have far : 4 ≤ (4 * ((x.groups.length : Int) - 1 - x.weight) - x.dscale).toNat := by
    rw [fracCount] at beyond
    omega
  have whole : 10000 ∣ Radix.value 10000 x.groups :=
    (pow_dvd_pow 10 far).trans x.covers
  rw [List.concat_eq_append] at is
  have small : g < 10000 := x.group_lt g (by rw [is]; simp)
  have last := x.last_ne
  rw [is, Radix.value_append, List.length_singleton, pow_one, Radix.value_singleton] at whole
  rw [is, List.getLast?_concat] at last
  have zero : 10000 ∣ g := (Nat.dvd_add_right ⟨_, Nat.mul_comm _ _⟩).mp whole
  exact last (congrArg some (Nat.eq_zero_of_dvd_of_lt zero small))

/-- Zero groups after the stored ones, up to the last one the display scale reaches into. -/
def after (x : Numeric) : Nat := (x.weight + 1 + x.fracCount - x.groups.length).toNat

theorem intGroups_eq :
    x.intGroups = (List.range (x.weight + 1 + x.before).toNat).map fun i : Nat =>
      x.group (-(x.before : Int) + i) := by
  rw [intGroups, before]
  split
  case isTrue below =>
      have one : (x.weight + 1 + (-x.weight).toNat).toNat = 1 := by omega
      rw [one, List.range_one, List.map_singleton, group_neg (by omega)]
  case isFalse above =>
      have none : (-x.weight).toNat = 0 := by omega
      have count : (x.weight + 1 + (0 : Nat)).toNat = x.weight.toNat + 1 := by omega
      rw [none, count]
      simp

theorem length_intGroups : x.intGroups.length = (x.weight + 1 + x.before).toNat := by
  rw [intGroups_eq, List.length_map, List.length_range]

theorem length_fracGroups : x.fracGroups.length = x.fracCount := by
  rw [fracGroups, List.length_map, List.length_range]

/-- The groups printed are the stored ones between zero groups. -/
theorem groups_window :
    x.intGroups ++ x.fracGroups =
      List.replicate x.before 0 ++ (x.groups ++ List.replicate x.after 0) := by
  have reach := length_le (x := x)
  have count : (x.weight + 1 + x.before).toNat + x.fracCount =
      x.before + (x.groups.length + x.after) := by
    rw [before, after]
    omega
  rw [← window_eq, ← count, List.range_add, List.map_append, List.map_map, intGroups_eq, fracGroups]
  congr 1
  refine List.map_congr_left fun j _ => ?_
  have zeros : x.before = (-x.weight).toNat := rfl
  show x.group (x.weight + 1 + j) =
    x.group (-(x.before : Int) + ((x.weight + 1 + x.before).toNat + j : Nat))
  congr 1
  omega

/-! ## What the digits denote -/

theorem value_take {ds : List Nat} {k : Nat} (within : ∀ d ∈ ds, d < 10) :
    Radix.value 10 (ds.take k) = Radix.value 10 ds / 10 ^ (ds.length - k) := by
  have rest : Radix.value 10 (ds.drop k) < 10 ^ (ds.length - k) := by
    rw [← List.length_drop]
    exact Radix.value_lt fun d d_mem => within d (List.mem_of_mem_drop d_mem)
  calc Radix.value 10 (ds.take k)
      _ = (Radix.value 10 (ds.take k) * 10 ^ (ds.length - k) + Radix.value 10 (ds.drop k)) /
          10 ^ (ds.length - k) := by
        rw [Nat.mul_comm, Nat.mul_add_div (by positivity), Nat.div_eq_of_lt rest, Nat.add_zero]
      _ = Radix.value 10 ds / 10 ^ (ds.length - k) := by
        rw [← List.length_drop, ← Radix.value_append, List.take_append_drop]

theorem unpack_append (u v : List Nat) : unpack (u ++ v) = unpack u ++ unpack v :=
  List.flatMap_append

/-- All digits, before the ones past the display scale are cut. -/
theorem value_window :
    Radix.value 10 (unpack (x.intGroups ++ x.fracGroups)) = x.number * 10000 ^ x.after := by
  have within : ∀ g ∈ x.intGroups ++ x.fracGroups, g < 10000 := by
    rw [groups_window]
    intro g g_mem
    rcases List.mem_append.mp g_mem with zero | g_mem
    · rw [List.eq_of_mem_replicate zero]
      decide
    · rcases List.mem_append.mp g_mem with stored | zero
      · exact x.group_lt g stored
      · rw [List.eq_of_mem_replicate zero]
        decide
  rw [value_unpack within, groups_window, value_zeros_append, Radix.value_append, value_replicate,
    List.length_replicate, Nat.add_zero, number]

/-- How many digits past the display scale the last group has. -/
def cut (x : Numeric) : Nat := 4 * x.fracCount - x.dscale

theorem length_unpack_fracGroups : (unpack x.fracGroups).length = x.dscale + x.cut := by
  rw [length_unpack, length_fracGroups, cut, fracCount]
  omega

theorem value_digits_cut :
    Radix.value 10 (x.intDigits ++ x.fracDigits) = x.number * 10000 ^ x.after / 10 ^ x.cut := by
  have plain : Radix.value 10 (x.intDigits ++ x.fracDigits) =
      Radix.value 10 (unpack x.intGroups ++ x.fracDigits) := by
    rw [intDigits, Radix.value_append, value_plain, ← Radix.value_append]
  have front : unpack x.intGroups ++ x.fracDigits =
      (unpack (x.intGroups ++ x.fracGroups)).take (4 * x.intGroups.length + x.dscale) := by
    rw [unpack_append, List.take_append, length_unpack, Nat.add_sub_cancel_left,
      List.take_of_length_le (by rw [length_unpack]; omega), fracDigits]
  have rest : (unpack (x.intGroups ++ x.fracGroups)).length -
      (4 * x.intGroups.length + x.dscale) = x.cut := by
    rw [unpack_append, List.length_append, length_unpack, length_unpack_fracGroups]
    omega
  rw [plain, front, value_take (unpack_lt _), rest, value_window]

/-- The shift to the display scale, in groups and digits past it. -/
theorem shift_eq : x.shift = 4 * x.after - x.cut := by
  have reach := length_le (x := x)
  rw [shift, after, cut, fracCount] at *
  omega

theorem value_digits : Radix.value 10 (x.intDigits ++ x.fracDigits) = x.scaled := by
  have groups : 10000 ^ x.after = 10 ^ (4 * x.after) := (pow_mul 10 4 _).symm
  rw [value_digits_cut, scaled, shift_eq, groups]
  rcases Nat.le_total x.cut (4 * x.after) with up | down
  · have shift : ((4 * x.after : Int) - x.cut).toNat = 4 * x.after - x.cut := by omega
    have none : (-((4 * x.after : Int) - x.cut)).toNat = 0 := by omega
    rw [shift, none, pow_zero, Nat.div_one]
    refine Nat.div_eq_of_eq_mul_left (by positivity) ?_
    rw [Nat.mul_assoc, ← pow_add, Nat.sub_add_cancel up]
  · have none : ((4 * x.after : Int) - x.cut).toNat = 0 := by omega
    have shift : (-((4 * x.after : Int) - x.cut)).toNat = x.cut - 4 * x.after := by omega
    rw [shift, none, pow_zero, Nat.mul_one, ← Nat.sub_add_cancel down, pow_add,
      Nat.mul_div_mul_right _ _ (by positivity), Nat.add_sub_cancel]

/-- The text denotes the value. -/
theorem shown_denotes (x : Numeric) : Denotes x.shown x.dscale x.value := by
  have int_lt : ∀ d ∈ x.intDigits, d < 10 := plain_lt (by decide) (unpack_lt _)
  have within : ∀ d ∈ x.intDigits ++ x.fracDigits, d < 10 := by
    intro d d_mem
    rcases List.mem_append.mp d_mem with front | back
    · exact int_lt d front
    · exact unpack_lt _ d (List.mem_of_mem_take back)
  have scale : (10 : ℚ) ^ x.dscale ≠ 0 := by positivity
  refine ⟨?_, x.neg, x.intDigits, x.fracDigits, rfl, within, plain_ne_nil, length_plain_of_head,
    length_fracDigits⟩
  rw [shown, read_text within plain_ne_nil, length_fracDigits, value_digits, ← value_scaled,
    mul_div_cancel_right₀ _ scale]

end Numeric

end Apitap.Copy
