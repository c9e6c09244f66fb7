import Apitap.Wire.BinlogDecimal
import Apitap.Wire.BinlogTime
import Mathlib.Data.List.DropRight

/-!
# Values as a server packs them

A legal value of each column type with its packed form and its text: integers of a width and
sign, years and dates, the temporal values, decimals, strings after a length, ENUM and SET by
their labels. Decoding takes exactly the packed form and gives the text. A float's text is the
shortest one, and JSON stays the binary document it is.
-/

namespace Apitap.Rows

open Foundation Decimal
open Copy (be fromBe length_be fromBe_be)

/-! ## Numbers -/

/-- A number's bytes, the lowest first. -/
def le (w n : Nat) : Bytes := (be w n).reverse

variable {floats : Floats} {c : ColDef}

theorem length_le (w n : Nat) : (le w n).length = w := by rw [le, List.length_reverse, length_be]

theorem uintLe_reads {w v : Nat} (fits : v < 256 ^ w) : (uintLe w).Reads (le w v) v := by
  refine (Cursor.reads_take _ (length_le w v)).andThen_nil ?_
  rw [fromLe, le, List.reverse_reverse, fromBe_be fits]
  exact Cursor.reads_ret v

theorem u8_reads_le {v : Nat} (fits : v < 256) : u8.Reads (le 1 v) v := by
  have same : le 1 v = be 1 v := by
    rw [le, be, Radix.digits, Radix.digits, List.nil_append]
    rfl
  rw [same]
  exact u8_reads fits

/-- The bytes of an integer type. -/
def intWidth : Mt → Option Nat
  | .tiny => some 1
  | .short => some 2
  | .int24 => some 3
  | .long => some 4
  | .longlong => some 8
  | _ => none

/-- The range of an integer type. -/
def InRange (unsigned : Bool) (n : Nat) (z : Int) : Prop :=
  if unsigned then 0 ≤ z ∧ z < 256 ^ n else -(256 ^ n : Int) ≤ z * 2 ∧ z * 2 < 256 ^ n

/-- An integer in two's complement. -/
def intWord (n : Nat) (z : Int) : Bytes := le n (z % 256 ^ n).toNat

theorem intWord_fits (n : Nat) (z : Int) : (z % 256 ^ n).toNat < 256 ^ n := by
  have positive : (0 : Int) < 256 ^ n := by positivity
  have small := Int.emod_lt_of_pos z positive
  have whole : ((256 ^ n : Nat) : Int) = 256 ^ n := by push_cast; rfl
  omega

theorem int_text {unsigned : Bool} {n : Nat} {z : Int} (inRange : InRange unsigned n z) :
    (if unsigned then ascii (itoa (z % 256 ^ n).toNat)
      else itoaInt (Int.bmod (z % 256 ^ n).toNat (256 ^ n))) = itoaInt z := by
  have positive : (0 : Int) < 256 ^ n := by positivity
  have word : (((z % 256 ^ n).toNat : Nat) : Int) = z % 256 ^ n :=
    Int.toNat_of_nonneg (Int.emod_nonneg z (by omega))
  have whole : ((256 ^ n : Nat) : Int) = 256 ^ n := by push_cast; rfl
  cases unsigned with
  | true =>
      obtain ⟨nonneg, small⟩ := inRange
      rw [if_pos rfl, Int.emod_eq_of_lt nonneg small, itoaInt, if_neg (by omega), List.nil_append]
      congr 2
      omega
  | false =>
      obtain ⟨low, high⟩ := inRange
      rw [if_neg Bool.false_ne_true, word, ← whole, Int.emod_bmod,
        Int.bmod_eq_of_le_mul_two (by omega) (by omega)]

theorem int_reads {n : Nat} {z : Int} (width : intWidth c.kind = some n)
    (inRange : InRange c.unsigned n z) : (decodeCell floats c).Reads (intWord n z) (itoaInt z) := by
  have text := int_text inRange
  have fits := intWord_fits n z
  have wide : (integer n c.unsigned).Reads (intWord n z) (itoaInt z) := by
    refine (uintLe_reads fits).andThen_nil ?_
    rw [text]
    exact Cursor.reads_ret _
  rw [decodeCell]
  cases kind : c.kind with
  | tiny =>
      rw [kind] at width
      obtain rfl : 1 = n := Option.some.inj width
      refine (u8_reads_le fits).andThen_nil ?_
      rw [← text]
      exact Cursor.reads_ret _
  | short | int24 | long | longlong =>
      rw [kind] at width
      obtain rfl := Option.some.inj width
      exact wide
  | _ =>
      rw [kind] at width
      cases width

/-! ## Years and dates -/

theorem year_text {y : Nat} (low : 1900 < y) (high : y < 2156) :
    ascii (itoa y) = ascii (Radix.digits 10 4 y) := by
  have front : Radix.digits 10 4 y = y / 1000 % 10 :: [y / 100 % 10, y / 10 % 10, y % 10] := by
    simp [Radix.digits, Nat.div_div_eq_div_mul]
  rw [← plain_digits (w := 4) (by omega), front, plain_cons (by omega)]

theorem year_reads {y : Nat} (kind : c.kind = .year) (legal : y = 0 ∨ (1900 < y ∧ y < 2156)) :
    (decodeCell floats c).Reads (le 1 (y - 1900)) (ascii (Radix.digits 10 4 y)) := by
  rw [decodeCell, kind]
  refine (u8_reads_le (by omega)).andThen_nil ?_
  rcases legal with rfl | ⟨low, high⟩
  · exact Cursor.reads_ret _
  · rw [if_neg (by omega), Nat.add_sub_cancel' (Nat.le_of_lt low), year_text low high]
    exact Cursor.reads_ret _

theorem date_reads {y m d : Nat} (kind : c.kind = .date) (year : y ≤ 9999) (month : m ≤ 12)
    (day : d ≤ 31) :
    (decodeCell floats c).Reads (le 3 (y * 2 ^ 9 + m * 2 ^ 5 + d)) (showDate y m d) := by
  have fields : (y * 2 ^ 9 + m * 2 ^ 5 + d) / 2 ^ 9 = y ∧
      (y * 2 ^ 9 + m * 2 ^ 5 + d) / 2 ^ 5 % 2 ^ 4 = m ∧ (y * 2 ^ 9 + m * 2 ^ 5 + d) %
        2 ^ 5 = d := by
    omega
  rw [decodeCell, kind]
  refine (uintLe_reads (by omega)).andThen_nil ?_
  rw [fields.1, fields.2.1, fields.2.2, dateText_eq m d (by omega)]
  exact Cursor.reads_ret _

/-! ## Strings -/

/-- A length of one byte or two, and the bytes. -/
def prefixedWord (max : Nat) (s : Bytes) : Bytes := le (if max < 256 then 1 else 2) s.length ++ s

theorem take_reads {n : Nat} {s : Bytes} (len : s.length = n) : (take n).Reads s s :=
  Cursor.reads_take _ len

theorem prefixed_reads {max : Nat} {s : Bytes} (wide : max < 65536) (len : s.length ≤ max) :
    (prefixed max).Reads (prefixedWord max s) s := by
  rw [prefixed, prefixedWord]
  split
  case isTrue short => exact (u8_reads_le (by omega)).andThen (take_reads rfl)
  case isFalse long => exact (uintLe_reads (by omega)).andThen (take_reads rfl)

theorem varchar_reads {s : Bytes} (kind : c.kind = .varchar ∨ c.kind = .varString)
    (wide : c.metadata < 65536) (len : s.length ≤ c.metadata) :
    (decodeCell floats c).Reads (prefixedWord c.metadata s) s := by
  rw [decodeCell]
  rcases kind with kind | kind
  · rw [kind]
    exact prefixed_reads wide len
  · rw [kind]
    exact prefixed_reads wide len

/-- The types of a value after its length. -/
def IsBlob : Mt → Prop
  | .blob | .tinyBlob | .mediumBlob | .longBlob | .geometry | .json => True
  | _ => False

theorem blob_reads {s : Bytes} (kind : IsBlob c.kind) (bytes : 1 ≤ c.metadata ∧ c.metadata ≤ 4)
    (len : s.length < 256 ^ c.metadata) :
    (decodeCell floats c).Reads (le c.metadata s.length ++ s) s := by
  have read : (blob c.metadata).Reads (le c.metadata s.length ++ s) s := by
    obtain one | two | three | four :
        c.metadata = 1 ∨ c.metadata = 2 ∨ c.metadata = 3 ∨ c.metadata = 4 := by omega
    · rw [one] at len ⊢
      exact (u8_reads_le len).andThen (take_reads rfl)
    · rw [two] at len ⊢
      exact (uintLe_reads len).andThen (take_reads rfl)
    · rw [three] at len ⊢
      exact (uintLe_reads len).andThen (take_reads rfl)
    · rw [four] at len ⊢
      exact (uintLe_reads len).andThen (take_reads rfl)
  rw [decodeCell]
  cases type : c.kind with
  | blob | tinyBlob | mediumBlob | longBlob | geometry | json => exact read
  | _ =>
      rw [type] at kind
      cases kind

theorem bit_reads {bits : Nat} {s : Bytes} (kind : c.kind = .bit)
    (described : c.metadata = bits % 8 * 256 + bits / 8) (legal : 1 ≤ bits ∧ bits ≤ 64)
    (len : s.length = (bits + 7) / 8) : (decodeCell floats c).Reads s s := by
  have halves : c.metadata % 256 = bits / 8 ∧ c.metadata / 256 = bits % 8 := by omega
  rw [decodeCell, kind]
  refine take_reads ?_
  rw [halves.1, halves.2, len]
  split
  · omega
  · omega

/-! ## Strings of a folded type -/

/-- Metadata of a string: the real type, with the high bits of the length turned in it. -/
def foldString (rt len : Nat) : Nat := (rt ^^^ (len / 256) <<< 4) * 256 + len % 256

theorem stringMeta_fold : ∀ rt ∈ [0xf7, 0xf8, 0xfe], ∀ len < 1024,
    stringMeta (foldString rt len) = (rt, len) := by decide +kernel

/-- A value without its last zeros. -/
def stripped (v : Bytes) : Bytes := v.rdropWhile (· == 0)

theorem length_stripped (v : Bytes) : (stripped v).length ≤ v.length :=
  (List.rdropWhile_prefix _ v).length_le

theorem stripped_padded (v : Bytes) :
    stripped v ++ List.replicate (v.length - (stripped v).length) 0 = v := by
  have whole : stripped v ++ v.rtakeWhile (· == 0) = v := List.rdropWhile_append_rtakeWhile
  have zeros : v.rtakeWhile (· == 0) = List.replicate (v.rtakeWhile (· == 0)).length 0 := by
    refine List.eq_replicate_iff.mpr ⟨rfl, fun b b_mem => ?_⟩
    have all := (List.rtakeWhile_eq_self_iff (p := (· == 0))
      (l := v.rtakeWhile (· == 0))).mp (List.rtakeWhile_idempotent _ v)
    exact beq_iff_eq.mp (all b b_mem)
  have size : v.length - (stripped v).length = (v.rtakeWhile (· == 0)).length := by
    have sum := congrArg List.length whole
    rw [List.length_append] at sum
    omega
  rw [size, ← zeros]
  exact whole

theorem string_eq {len : Nat} (kind : c.kind = .string)
    (described : c.metadata = foldString 0xfe len)
    (small : len < 1024) : decodeCell floats c = (prefixed len).andThen fun v =>
      .ret (if c.binary ∧ v.length < len then v ++ List.replicate (len - v.length) 0 else v) := by
  rw [decodeCell, kind]
  simp only [described, stringMeta_fold 0xfe (by decide) len small]
  rfl

theorem char_reads {len : Nat} {s : Bytes} (kind : c.kind = .string)
    (described : c.metadata = foldString 0xfe len) (small : len < 1024) (text : c.binary = false)
    (fits : s.length ≤ len) : (decodeCell floats c).Reads (prefixedWord len s) s := by
  rw [string_eq kind described small]
  refine (prefixed_reads (by omega) fits).andThen_nil ?_
  rw [if_neg fun both => by rw [text] at both; exact Bool.false_ne_true both.1]
  exact Cursor.reads_ret s

/-- A BINARY value comes without its last zeros and is read with them. -/
theorem binary_reads {v : Bytes} (kind : c.kind = .string)
    (described : c.metadata = foldString 0xfe v.length) (small : v.length < 1024)
    (binary : c.binary = true) :
    (decodeCell floats c).Reads (prefixedWord v.length (stripped v)) v := by
  have padded := stripped_padded v
  have shorter := length_stripped v
  rw [string_eq kind described small]
  refine (prefixed_reads (by omega) shorter).andThen_nil ?_
  by_cases cut : (stripped v).length < v.length
  · rw [if_pos ⟨binary, cut⟩, padded]
    exact Cursor.reads_ret v
  · rw [Nat.sub_eq_zero_of_le (Nat.not_lt.mp cut), List.replicate_zero, List.append_nil] at padded
    rw [if_neg fun both => cut both.2, padded]
    exact Cursor.reads_ret v

/-! ## Labels -/

/-- An ENUM of an index of `n` bytes, by itself or folded into a string. -/
def IsEnumOf (c : ColDef) (n : Nat) : Prop :=
  (c.kind = .enum ∧ c.metadata = n) ∨ (c.kind = .string ∧ c.metadata = foldString 0xf7 n)

/-- A SET of a mask of `n` bytes. -/
def IsSetOf (c : ColDef) (n : Nat) : Prop :=
  (c.kind = .set ∧ c.metadata = n) ∨ (c.kind = .string ∧ c.metadata = foldString 0xf8 n)

theorem enum_eq {n : Nat} (is : IsEnumOf c n) (small : n < 256) :
    decodeCell floats c = enumCell c.labels (n = 1) := by
  rcases is with ⟨kind, described⟩ | ⟨kind, described⟩
  · rw [decodeCell, kind]
    simp only [described, Nat.mod_eq_of_lt small]
  · rw [decodeCell, kind]
    simp only [described, stringMeta_fold 0xf7 (by decide) n (by omega)]
    rfl

theorem set_eq {n : Nat} (is : IsSetOf c n) (small : n < 256) :
    decodeCell floats c = setCell c.labels n := by
  rcases is with ⟨kind, described⟩ | ⟨kind, described⟩
  · rw [decodeCell, kind]
    simp only [described, Nat.mod_eq_of_lt small]
  · rw [decodeCell, kind]
    simp only [described, stringMeta_fold 0xf8 (by decide) n (by omega)]
    rfl

/-- A member by its index; the empty text for none. -/
def member (l : List Bytes) (i : Nat) : Bytes := if i = 0 then [] else l.getD (i - 1) []

theorem enum_reads {n i : Nat} {l : List Bytes} (is : IsEnumOf c n) (bytes : n = 1 ∨ n = 2)
    (labels : c.labels = some l) (few : l.length < 256 ^ n) (within : i ≤ l.length) :
    (decodeCell floats c).Reads (le n i) (member l i) := by
  have shown : renderEnum (some l) i = .ok (member l i) := by
    rw [renderEnum.eq_def, member]
    by_cases zero : i = 0
    · rw [if_pos zero, if_pos zero]
    · have stored : i - 1 < l.length := by omega
      rw [if_neg zero, if_neg zero]
      simp only [List.getElem?_eq_getElem stored, Stop.orErr_some, List.getD_eq_getElem?_getD,
        Option.getD_some]
  rw [enum_eq is (by omega), labels]
  rcases bytes with rfl | rfl
  · exact (u8_reads_le (by omega)).andThen_nil (Cursor.reads_lift shown)
  · exact (uintLe_reads (by omega)).andThen_nil (Cursor.reads_lift shown)

/-- The members whose bits are set, with commas between. -/
def members (v : Nat) (l : List (Bytes × Nat)) : Bytes := List.intercalate [44] (chosen v l)

theorem set_reads {n v : Nat} {l : List Bytes} (is : IsSetOf c n) (bytes : 1 ≤ n ∧ n ≤ 8)
    (labels : c.labels = some l) (few : l.length ≤ 8 * n)
    (named : ¬ Separated.LeadsEmpty (chosen v l.zipIdx)) (within : v < 2 ^ l.length) :
    (decodeCell floats c).Reads (le n v) (members v l.zipIdx) := by
  have small : v < 256 ^ n := by
    calc v < 2 ^ l.length := within
      _ ≤ 2 ^ (8 * n) := Nat.pow_le_pow_right (by decide) few
      _ = 256 ^ n := by rw [Nat.pow_mul]
  have shown : renderSet 44 (some l) v = .ok (members v l.zipIdx) := by
    have inside : ¬ (l.length < 64 ∧ 2 ^ l.length ≤ v) := by omega
    rw [renderSet, Stop.orErr_some, Stop.ok_bind, if_neg inside, if_neg (by omega), setLabels_eq,
      (Separated.joined_eq_iff _).mpr named, members]
  rw [set_eq is (by omega), labels, setCell, Nat.max_eq_left bytes.1]
  refine (take_reads (length_le n v)).andThen_nil ?_
  rw [List.take_of_length_le (by rw [length_le]; exact bytes.2), fromLe, le, List.reverse_reverse,
    fromBe_be small]
  exact Cursor.reads_lift shown

end Apitap.Rows
