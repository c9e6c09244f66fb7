import Apitap.Wire.NumericText

/-!
# A numeric field out of decimal text

The digits on either side of the point are padded to whole groups of four and cut, the zero
groups at both ends are left out, and the weight follows from how many were in front. The
groups go to a buffer of 32, and a group to 16 bits.
-/

namespace Apitap.Copy

open Foundation Decimal

/-- Digits on their way into groups. -/
structure Cutting where
  groups : List Nat
  acc : Nat
  n : Nat

/-- One more digit; a full group goes to the buffer. -/
def Cutting.push (c : Cutting) (d : Nat) : Option Cutting :=
  (checkedNat 15 (c.acc * 10)).bind fun acc =>
    (checkedNat 15 (acc + d)).bind fun acc =>
      if c.n + 1 = 4 then
        if c.groups.length < 32 then some ⟨c.groups ++ [acc], 0, 0⟩ else none
      else some ⟨c.groups, acc, c.n + 1⟩

/-- All digits of one side, after the groups that are there. -/
def cutDigits (groups : List Nat) (ds : List Nat) : Option (List Nat) :=
  (ds.foldlM Cutting.push ⟨groups, 0, 0⟩).map (·.groups)

/-- The end of the groups without the zero ones there, from an end on down to `lead`. -/
def trimEnd (groups : List Nat) (lead : Nat) : Nat → Nat
  | 0 => 0
  | e + 1 => if lead < e + 1 ∧ groups.getD e 0 = 0 then trimEnd groups lead e else e + 1

def isAsciiDigit (c : Char) : Bool := '0' ≤ c ∧ c ≤ '9'

def digitVal (c : Char) : Nat := c.toNat - 48

def malformed (s : List Char) : Error :=
  .transfer ("malformed decimal '" ++ String.ofList s ++ "'")

/-- The length word and the payload, from the digits on either side of the point. -/
def fieldOf (neg : Bool) (s : List Char) (int frac : List Nat) : Except (Stop Error) Bytes :=
  if 100 < int.length + frac.length then .error (.err (malformed s))
  else
    let left := List.replicate ((4 - int.length % 4) % 4) 0 ++ int
    let right := frac ++ List.replicate ((frac.length + 3) / 4 * 4 - frac.length) 0
    (Stop.orPanic (cutDigits [] left)).bind fun intGroups =>
      (Stop.orPanic (cutDigits intGroups right)).bind fun groups =>
        let lead := (groups.takeWhile (· == 0)).length
        let stop := trimEnd groups lead groups.length
        let ndigits := stop - lead
        let weight : Int := if lead = stop then 0 else intGroups.length - 1 - lead
        .ok (be 4 (8 + ndigits * 2) ++ (be 2 ndigits ++ be 2 (weight % 65536).toNat ++
          be 2 (if neg ∧ 0 < ndigits then 0x4000 else 0x0000) ++ be 2 frac.length ++
          ((groups.drop lead).take ndigits).flatMap (be 2)))

def numericFieldFromStr (s : List Char) : Except (Stop Error) Bytes :=
  let neg : Bool := s.head? = some '-'
  let rest := if neg then s.tail else if s.head? = some '+' then s.tail else s
  let int := rest.takeWhile (· != '.')
  let frac := (rest.dropWhile (· != '.')).tail
  if int = [] ∧ frac = [] then .error (.err (malformed s))
  else if ¬ (int.all isAsciiDigit ∧ frac.all isAsciiDigit) then .error (.err (malformed s))
  else fieldOf neg s (int.map digitVal) (frac.map digitVal)

/-- Bytes of ASCII as text. -/
def asChars (t : Bytes) : List Char := t.map fun b => Char.ofNat b.toNat

/-! ## Groups back from digits -/

theorem push_small {groups : List Nat} {acc n d : Nat} (small : acc * 10 + d < 2 ^ 15) :
    Cutting.push ⟨groups, acc, n⟩ d =
      if n + 1 = 4 then
        if groups.length < 32 then some ⟨groups ++ [acc * 10 + d], 0, 0⟩ else none
      else some ⟨groups, acc * 10 + d, n + 1⟩ := by
  have product : acc * 10 < 2 ^ 15 := by omega
  rw [Cutting.push, checkedNat_of_lt product, Option.bind_some, checkedNat_of_lt small,
    Option.bind_some]

theorem push_digits {groups : List Nat} {g : Nat} (small : g < 10000) (room : groups.length < 32) :
    (Radix.digits 10 4 g).foldlM Cutting.push ⟨groups, 0, 0⟩ = some ⟨groups ++ [g], 0, 0⟩ := by
  have a : g / 10 / 10 / 10 % 10 < 10 := Nat.mod_lt _ (by decide)
  have b : g / 10 / 10 % 10 < 10 := Nat.mod_lt _ (by decide)
  have c : g / 10 % 10 < 10 := Nat.mod_lt _ (by decide)
  have d : g % 10 < 10 := Nat.mod_lt _ (by decide)
  have whole : (((0 * 10 + g / 10 / 10 / 10 % 10) * 10 + g / 10 / 10 % 10) * 10 + g / 10 % 10) * 10
    +
      g % 10 = g := by omega
  simp only [Radix.digits, List.nil_append, List.cons_append, List.foldlM_cons, List.foldlM_nil,
    Option.bind_eq_bind, Option.pure_def]
  rw [push_small (by omega), if_neg (by decide), Option.bind_some, push_small (by omega),
    if_neg (by decide), Option.bind_some, push_small (by omega), if_neg (by decide),
    Option.bind_some, push_small (by omega), if_pos rfl, if_pos room, Option.bind_some, whole]

theorem cutDigits_unpack {groups gs : List Nat} (within : ∀ g ∈ gs, g < 10000)
    (room : groups.length + gs.length ≤ 32) :
    cutDigits groups (Numeric.unpack gs) = some (groups ++ gs) := by
  have fold : (Numeric.unpack gs).foldlM Cutting.push ⟨groups, 0, 0⟩ =
      some ⟨groups ++ gs, 0, 0⟩ := by
    induction gs generalizing groups with
    | nil => rw [List.append_nil]; rfl
    | cons g gs ih =>
        rw [List.length_cons] at room
        have rest := ih (fun h h_mem => within h (List.mem_cons_of_mem _ h_mem))
          (show (groups ++ [g]).length + gs.length ≤ 32 by
            rw [List.length_append, List.length_singleton]
            omega)
        rw [Numeric.unpack_cons, List.foldlM_append,
          push_digits (within g List.mem_cons_self) (by omega)]
        rw [List.append_assoc] at rest
        exact rest
  rw [cutDigits, fold, Option.map_some]

/-! ## Zero groups at the ends -/

theorem trimEnd_zeros {groups : List Nat} {lead n : Nat} (t : Nat) (past : lead ≤ n)
    (zeros : ∀ i, n ≤ i → i < n + t → groups.getD i 0 = 0) :
    trimEnd groups lead (n + t) = trimEnd groups lead n := by
  induction t with
  | zero => rfl
  | succ t ih =>
      have last := zeros (n + t) (by omega) (by omega)
      rw [← Nat.add_assoc, trimEnd, if_pos ⟨by omega, last⟩]
      exact ih fun i low high => zeros i low (by omega)

theorem trimEnd_stop {groups : List Nat} {lead n : Nat}
    (stays : n ≤ lead ∨ groups.getD (n - 1) 0 ≠ 0) : trimEnd groups lead n = n := by
  cases n with
  | zero => rfl
  | succ n =>
      rw [trimEnd, if_neg]
      rintro ⟨more, zero⟩
      rcases stays with low | nonzero
      · omega
      · exact nonzero zero

/-- Groups between zero groups are found again. -/
theorem trimEnd_zeros_around {gs : List Nat} (z t : Nat) (head : gs.head? ≠ some 0)
    (last : gs.getLast? ≠ some 0) (some_gs : gs ≠ []) :
    let all := List.replicate z 0 ++ (gs ++ List.replicate t 0)
    (all.takeWhile (· == 0)).length = z ∧ trimEnd all z all.length = z + gs.length ∧
      (all.drop z).take gs.length = gs := by
  intro all
  have len : all.length = z + gs.length + t := by simp [all, Nat.add_assoc]
  have inside (i : Nat) : all.getD (z + i) 0 = (gs ++ List.replicate t 0).getD i 0 := by
    simp [all, List.getD_eq_getElem?_getD, List.getElem?_append_right]
  have positive := List.length_pos_of_ne_nil some_gs
  refine ⟨?_, ?_, by simp [all]⟩
  · obtain ⟨g, rest, rfl⟩ := List.exists_cons_of_ne_nil some_gs
    have nonzero : g ≠ 0 := fun zero => head (by rw [zero]; rfl)
    rw [List.takeWhile_append_of_pos (fun d d_mem => by simp [List.eq_of_mem_replicate d_mem])]
    simp [nonzero]
  · rw [len, trimEnd_zeros t (Nat.le_add_right z _)]
    · refine trimEnd_stop (.inr ?_)
      have place : z + gs.length - 1 = z + (gs.length - 1) := by omega
      rw [place, inside, List.getD_eq_getElem?_getD, List.getElem?_append_left (by omega),
        ← List.getLast?_eq_getElem?]
      rw [List.getLast?_eq_some_getLast some_gs] at last ⊢
      exact fun zero => last (congrArg some zero)
    · intro i low high
      obtain ⟨j, rfl⟩ : ∃ j, i = z + (gs.length + j) := ⟨i - z - gs.length, by omega⟩
      rw [inside]
      simp [List.getD_eq_getElem?_getD, List.getElem?_append_right, List.getElem?_replicate]
      split <;> rfl

/-! ## The text taken apart -/

def chars (ds : List Nat) : List Char := ds.map fun d => Char.ofNat (48 + d)

theorem digit_char : ∀ d < 10, isAsciiDigit (Char.ofNat (48 + d)) = true ∧
    digitVal (Char.ofNat (48 + d)) = d ∧ Char.ofNat (48 + d) ≠ '.' ∧
    Char.ofNat (48 + d) ≠ '-' ∧ Char.ofNat (48 + d) ≠ '+' := by
  decide

theorem asChars_ascii {ds : List Nat} (within : ∀ d ∈ ds, d < 10) :
    asChars (ascii ds) = chars ds := by
  rw [asChars, ascii, List.map_map, chars]
  refine List.map_congr_left fun d d_mem => ?_
  show Char.ofNat (UInt8.ofNat (48 + d)).toNat = _
  rw [toNat_ascii (within d d_mem)]

theorem map_digitVal {ds : List Nat} (within : ∀ d ∈ ds, d < 10) :
    (chars ds).map digitVal = ds := by
  rw [chars, List.map_map]
  exact (List.map_congr_left fun d d_mem => (digit_char d (within d d_mem)).2.1).trans
    (List.map_id ds)

theorem all_digits {ds : List Nat} (within : ∀ d ∈ ds, d < 10) :
    (chars ds).all isAsciiDigit = true := by
  rw [List.all_eq_true]
  intro c c_mem
  obtain ⟨d, d_mem, rfl⟩ := List.mem_map.mp c_mem
  exact (digit_char d (within d d_mem)).1

@[simp] theorem length_chars (ds : List Nat) : (chars ds).length = ds.length := List.length_map _

theorem numericFieldFromStr_text (neg : Bool) {int frac : List Nat} (int_lt : ∀ d ∈ int, d < 10)
    (frac_lt : ∀ d ∈ frac, d < 10) (some_int : int ≠ []) :
    numericFieldFromStr (asChars (text neg int frac)) =
      fieldOf neg (asChars (text neg int frac)) int frac := by
  obtain ⟨tail, tail_is⟩ : ∃ tail : List Char, (if frac = [] then [] else '.' :: chars frac) =
    tail :=
    ⟨_, rfl⟩
  have split : (chars int ++ tail).takeWhile (· != '.') = chars int ∧
      ((chars int ++ tail).dropWhile (· != '.')).tail = chars frac := by
    have plain : ∀ c ∈ chars int, (c != '.') = true := by
      intro c c_mem
      obtain ⟨d, d_mem, rfl⟩ := List.mem_map.mp c_mem
      exact bne_iff_ne.mpr (digit_char d (int_lt d d_mem)).2.2.1
    rw [List.takeWhile_append_of_pos plain, List.dropWhile_append_of_pos plain, ← tail_is]
    split
    case isTrue none =>
        subst none
        simp [chars]
    case isFalse => simp
  obtain ⟨d, rest, is⟩ := List.exists_cons_of_ne_nil some_int
  have first := digit_char d (int_lt d (by rw [is]; exact List.mem_cons_self))
  have head : (chars int ++ tail).head? = some (Char.ofNat (48 + d)) := by
    rw [is]
    rfl
  have shown : asChars (text neg int frac) = (if neg then ['-'] else []) ++
    (chars int ++ tail) := by
    have sides : asChars (ascii int) = chars int ∧ asChars (ascii frac) = chars frac :=
      ⟨asChars_ascii int_lt, asChars_ascii frac_lt⟩
    have back : asChars (if frac = [] then [] else 46 :: ascii frac) = tail := by
      rw [← tail_is]
      split
      case isTrue => rfl
      case isFalse => exact congrArg ('.' :: ·) sides.2
    have sign : asChars (if neg then [45] else []) = if neg then ['-'] else [] := by
      cases neg with
      | true => rfl
      | false => rfl
    rw [text, asChars, List.map_append, List.map_append, ← asChars, ← asChars, ← asChars, sides.1,
      back, sign, List.append_assoc]
  have nonempty : ¬ (chars int = [] ∧ chars frac = []) := fun both => by
    rw [is] at both
    cases both.1
  have digits : ¬ ¬ ((chars int).all isAsciiDigit ∧ (chars frac).all isAsciiDigit) :=
    not_not.mpr ⟨all_digits int_lt, all_digits frac_lt⟩
  rw [shown, numericFieldFromStr]
  cases neg with
  | true =>
      simp only [if_true, List.cons_append, List.nil_append, List.head?_cons, decide_true,
        List.tail_cons, split, if_neg nonempty, if_neg digits, map_digitVal int_lt,
        map_digitVal frac_lt]
  | false =>
      have minus : ¬ some (Char.ofNat (48 + d)) = some '-' := fun same =>
        first.2.2.2.1 (Option.some.inj same)
      have plus : ¬ some (Char.ofNat (48 + d)) = some '+' := fun same =>
        first.2.2.2.2 (Option.some.inj same)
      simp only [Bool.false_eq_true, if_false, List.nil_append, head, minus, plus, decide_false,
        split, if_neg nonempty, if_neg digits, map_digitVal int_lt, map_digitVal frac_lt]

/-! ## A numeric's own digits -/

namespace Numeric

variable {x : Numeric}

theorem intDigits_lt : ∀ d ∈ x.intDigits, d < 10 := plain_lt (by decide) (unpack_lt _)

theorem fracDigits_lt : ∀ d ∈ x.fracDigits, d < 10 := fun d d_mem =>
  unpack_lt _ d (List.mem_of_mem_take d_mem)

/-- The first group has one to four digits, every other one has four. -/
theorem length_intDigits : 4 * (x.intGroups.length - 1) + 1 ≤ x.intDigits.length ∧
    x.intDigits.length ≤ 4 * x.intGroups.length := by
  by_cases below : x.weight < 0
  · rw [intDigits_of_neg below, intGroups, if_pos below]
    decide
  · have above := Int.not_lt.mp below
    have groups : x.intGroups.length = x.weight.toNat + 1 := by
      rw [intGroups, if_neg below, List.length_map, List.length_range]
    have rest : ((List.range x.weight.toNat).flatMap fun i : Nat =>
        Radix.digits 10 4 (x.group (i + 1 : Nat))).length = 4 * x.weight.toNat := by
      simp [List.length_flatMap, Nat.mul_comm]
    have first : (itoa (x.group 0)).length ≤ 4 := by
      have fits : x.group 0 < 10 ^ 4 := group_lt' 0
      have parts := exists_zeros (Radix.digits 10 4 (x.group 0))
      rw [plain_digits fits] at parts
      rcases parts with ⟨n, zeros⟩ | ⟨n, front⟩
      · have one := plain_replicate n
        rw [← zeros, plain_digits fits] at one
        rw [one]
        decide
      · have len := congrArg List.length front
        rw [Radix.length_digits, List.length_append] at len
        omega
    have some_first : 0 < (itoa (x.group 0)).length := by
      rw [← plain_digits (show x.group 0 < 10 ^ 4 from group_lt' 0)]
      exact List.length_pos_of_ne_nil plain_ne_nil
    rw [intDigits_eq above, List.length_append, rest, groups]
    omega

theorem intGroups_lt : ∀ g ∈ x.intGroups, g < 10000 := by
  rw [intGroups_eq]
  intro g g_mem
  obtain ⟨i, -, rfl⟩ := List.mem_map.mp g_mem
  exact group_lt' _

theorem fracGroups_lt : ∀ g ∈ x.fracGroups, g < 10000 := by
  intro g g_mem
  obtain ⟨i, -, rfl⟩ := List.mem_map.mp g_mem
  exact group_lt' _

/-- The integer digits, padded, are the groups again. -/
theorem pad_left :
    List.replicate ((4 - x.intDigits.length % 4) % 4) 0 ++ x.intDigits = unpack x.intGroups := by
  obtain ⟨low, high⟩ := length_intDigits (x := x)
  refine Radix.eq_of_value (b := 10) (by decide) ?_ (unpack_lt _) ?_ ?_
  · intro d d_mem
    rcases List.mem_append.mp d_mem with zero | d_mem
    · rw [List.eq_of_mem_replicate zero]
      decide
    · exact intDigits_lt d d_mem
  · rw [List.length_append, List.length_replicate, length_unpack]
    omega
  · rw [value_zeros_append, intDigits, value_plain]

/-- No digit that is not zero lies past the display scale. -/
theorem cut_dvd : 10 ^ x.cut ∣ Radix.value 10 (unpack x.fracGroups) := by
  have whole : 10 ^ x.cut ∣ x.number * 10000 ^ x.after := by
    by_cases none : x.after = 0
    · have reach := length_le (x := x)
      have hidden : (4 * ((x.groups.length : Int) - 1 - x.weight) - x.dscale).toNat = x.cut := by
        rw [after] at none
        rw [cut]
        omega
      have covers := x.covers
      rw [hidden] at covers
      exact covers.mul_right _
    · have few : x.cut ≤ 4 := by
        rw [cut, fracCount]
        omega
      have four : 10 ^ x.cut ∣ 10000 ^ x.after :=
        (pow_dvd_pow 10 few).trans (dvd_pow_self (10 ^ 4) none)
      exact four.mul_left _
  have parts := value_window (x := x)
  rw [unpack_append, Radix.value_append, length_unpack_fracGroups] at parts
  have front : 10 ^ x.cut ∣ Radix.value 10 (unpack x.intGroups) * 10 ^ (x.dscale + x.cut) :=
    (pow_dvd_pow 10 (Nat.le_add_left _ _)).mul_left _
  exact (Nat.dvd_add_right front).mp (parts ▸ whole)

/-- The fraction digits, padded, are the groups again. -/
theorem pad_right :
    x.fracDigits ++ List.replicate ((x.fracDigits.length + 3) / 4 * 4 - x.fracDigits.length) 0 =
      unpack x.fracGroups := by
  have count : (x.fracDigits.length + 3) / 4 * 4 - x.fracDigits.length = x.cut := by
    rw [length_fracDigits, cut, fracCount]
    omega
  have len : (unpack x.fracGroups).length - x.dscale = x.cut := by
    rw [length_unpack_fracGroups]
    omega
  rw [count]
  refine Radix.eq_of_value (b := 10) (by decide) ?_ (unpack_lt _) ?_ ?_
  · intro d d_mem
    rcases List.mem_append.mp d_mem with d_mem | zero
    · exact fracDigits_lt d d_mem
    · rw [List.eq_of_mem_replicate zero]
      decide
  · rw [List.length_append, List.length_replicate, length_fracDigits, length_unpack_fracGroups]
  · rw [Radix.value_append, value_replicate, List.length_replicate, Nat.add_zero, fracDigits,
      value_take (unpack_lt _), len, Nat.div_mul_cancel cut_dvd]

/-- The window of groups trimmed to the stored ones. -/
theorem trim_window :
    let all := x.intGroups ++ x.fracGroups
    let lead := (all.takeWhile (· == 0)).length
    let stop := trimEnd all lead all.length
    stop - lead = x.groups.length ∧ (all.drop lead).take x.groups.length = x.groups ∧
      (if lead = stop then (0 : Int) else x.intGroups.length - 1 - lead) = x.weight := by
  intro all lead stop
  have window : all = _ := groups_window
  by_cases none : x.groups = []
  · have zeros : all = List.replicate (x.before + x.after) 0 := by
      rw [window, none, List.nil_append, List.replicate_append_replicate]
    have all_lead : lead = all.length := by
      show (all.takeWhile (· == 0)).length = all.length
      rw [zeros, List.takeWhile_replicate_eq_filter]
      simp
    have stops : stop = lead := by
      show trimEnd all lead all.length = lead
      rw [all_lead, trimEnd_stop (.inl (Nat.le_refl _))]
    rw [stops, Nat.sub_self, if_pos rfl, none, (x.zero none).2]
    exact ⟨rfl, rfl, rfl⟩
  · obtain ⟨leads, stops, slice⟩ := trimEnd_zeros_around x.before x.after x.head_ne x.last_ne none
    rw [← window] at leads stops slice
    have lead_is : lead = x.before := leads
    have stop_is : stop = x.before + x.groups.length := by
      show trimEnd all lead all.length = _
      rw [lead_is, stops]
    have some_groups := List.length_pos_of_ne_nil none
    rw [stop_is, lead_is, if_neg (by omega), length_intGroups]
    refine ⟨Nat.add_sub_cancel_left _ _, slice, ?_⟩
    rw [before]
    omega

/-- A text of at most a hundred digits is made into the payload it was printed from. -/
theorem field_of_shown (short : x.intDigits.length + x.fracDigits.length ≤ 100) :
    numericFieldFromStr (asChars x.shown) = .ok (field (some x.bytes)) := by
  obtain ⟨low, -⟩ := length_intDigits (x := x)
  have scale := length_fracDigits (x := x)
  have count := length_fracGroups (x := x)
  have room : x.intGroups.length + x.fracGroups.length ≤ 32 := by
    rw [count, fracCount]
    omega
  obtain ⟨digits, slice, weight⟩ := trim_window (x := x)
  have sign : (if x.neg = true ∧ 0 < x.groups.length then 0x4000 else 0x0000) =
      if x.neg then 0x4000 else 0x0000 := by
    by_cases none : x.groups = []
    · simp [(x.zero none).1]
    · simp [List.length_pos_of_ne_nil none]
  rw [shown, numericFieldFromStr_text x.neg intDigits_lt fracDigits_lt plain_ne_nil, fieldOf,
    if_neg (Nat.not_lt.mpr short)]
  simp only [pad_left, pad_right]
  rw [cutDigits_unpack intGroups_lt (by rw [List.length_nil]; omega),
    Stop.orPanic_some, Stop.ok_bind,
    List.nil_append, cutDigits_unpack fracGroups_lt room, Stop.orPanic_some, Stop.ok_bind]
  simp only [digits, slice, weight, sign, scale]
  rw [field, length_bytes, bytes, weightWord]
  congr 3
  rw [Nat.mul_comm]

end Numeric

end Apitap.Copy
