import Apitap.Wire.NumericValue

/-!
# Fields from a binary COPY to RowBinary

One column's conversion: byte-swapped numbers, dates and timestamps moved to the Unix epoch,
decimals scaled to the declared shape, length-prefixed text. The quotient that fills an
undeclared NUMERIC's Float64 is a parameter.
-/

namespace Apitap.Copy

open Foundation

inductive RbType where
  | swap (width : Nat)
  | bool
  | date32
  | ts64
  | decimal (width scale : Nat)
  | numericF64
  | string
  | jsonB
  | uuid
deriving DecidableEq, Repr

/-- A Postgres numeric(p, s) as a destination decimal can hold it. -/
def decimalShape (p s : Int) : Int × Int :=
  if s < 0 then (p - s, 0) else (max p s, s)

def rbType (udt : String) (precision scale : Option Int) : Option RbType :=
  match udt with
  | "int2" => some (.swap 2)
  | "int4" => some (.swap 4)
  | "int8" => some (.swap 8)
  | "float4" => some (.swap 4)
  | "float8" => some (.swap 8)
  | "bool" => some .bool
  | "date" => some .date32
  | "timestamp" => some .ts64
  | "timestamptz" => some .ts64
  | "numeric" =>
      match precision, scale with
      | some p, some s =>
          let (p, s) := decimalShape p s
          if p ≤ 38 then some (.decimal (if p ≤ 9 then 4 else if p ≤ 18 then 8 else 16) s.toNat)
          else none
      | some p, none => if 38 < p then none else some .numericF64
      | none, _ => some .numericF64
  | "varchar" => some .string
  | "bpchar" => some .string
  | "text" => some .string
  | "name" => some .string
  | "json" => some .string
  | "jsonb" => some .jsonB
  | "uuid" => some .uuid
  | _ => none

/-- A number as little-endian bytes. -/
def le (w n : Nat) : Bytes := (be w n).reverse

/-- A signed number as little-endian bytes, in two's complement. -/
def leInt (w : Nat) (z : Int) : Bytes := le w (z % (256 ^ w : Nat)).toNat

/-- The signed number little-endian bytes denote. -/
def fromLeInt (bs : Bytes) : Int := Int.bmod (fromBe bs.reverse) (256 ^ bs.length)

/-- Big-endian bytes read as signed. -/
def fromBeInt (bs : Bytes) : Int := Int.bmod (fromBe bs) (256 ^ bs.length)

def varint (v : Nat) : Bytes :=
  if v < 0x80 then [UInt8.ofNat v]
  else UInt8.ofNat (v % 0x80 + 0x80) :: varint (v / 0x80)
termination_by v

def pgEpochDays : Int := 10957

def pgEpochMicros : Int := 946684800000000

def infiniteDate : Error :=
  .transfer ("pg binary COPY: date 'infinity' has no ClickHouse Date32 value — cast the " ++
    "column to text in a source view, or filter those rows")

def infiniteTimestamp : Error :=
  .transfer ("pg binary COPY: timestamp 'infinity' has no ClickHouse DateTime64 value — " ++
    "cast the column to text in a source view, or filter those rows")

/-- A value that must fit its bytes. -/
def decimalBytes (width : Nat) (v : Int) : Except (Stop Error) Bytes :=
  if width = 4 ∨ width = 8 then
    if Fits (8 * width) v then .ok (leInt width v) else .error (.err (bad "decimal"))
  else .ok (leInt 16 v)

/-- One field's bytes; `f64` is the quotient of an undeclared NUMERIC as eight bytes. -/
def transcodeField (f64 : Int → Int → Bytes) (ty : RbType) (f : Bytes) :
    Except (Stop Error) Bytes :=
  match ty with
  | .swap w =>
      if f.length = w ∧ (w = 2 ∨ w = 4 ∨ w = 8) then .ok (le w (fromBe f))
      else
        .error (.err (.transfer ("field width " ++ toString f.length ++ " != " ++ toString w)))
  | .bool => (Stop.orErr (bad "bool") f.head?).map fun b => [b]
  | .date32 =>
      if f.length ≠ 4 then .error (.err (bad "date"))
      else
        let d := fromBeInt f
        if d = 2 ^ 31 - 1 ∨ d = -2 ^ 31 then .error (.err infiniteDate)
        else (Stop.orErr (bad "date") (checked 32 (d + pgEpochDays))).map (leInt 4)
  | .ts64 =>
      if f.length ≠ 8 then .error (.err (bad "timestamp"))
      else
        let t := fromBeInt f
        if t = 2 ^ 63 - 1 ∨ t = -2 ^ 63 then .error (.err infiniteTimestamp)
        else (Stop.orErr (bad "timestamp") (checked 64 (t + pgEpochMicros))).map (leInt 8)
  | .decimal width scale => (numericToScaledI128 f scale).bind (decimalBytes width)
  | .numericF64 => (numericToScaledI128Raw f).map fun (v, dscale) => f64 v dscale
  | .string => .ok (varint f.length ++ f)
  | .jsonB =>
      match f with
      | 1 :: f => .ok (varint f.length ++ f)
      | _ => .error (.err (bad "jsonb version"))
  | .uuid =>
      if f.length ≠ 16 then .error (.err (bad "uuid"))
      else .ok (le 8 (fromBe (f.take 8)) ++ le 8 (fromBe (f.drop 8)))

/-! ## Signed words -/

@[simp] theorem length_leInt {w : Nat} {z : Int} : (leInt w z).length = w := by
  rw [leInt, le, List.length_reverse, length_be]

theorem fromLeInt_leInt {w : Nat} {z : Int} (positive : 0 < w) (fits : Fits (8 * w) z) :
    fromLeInt (leInt w z) = z := by
  have power : (256 : Int) ^ w = 2 ^ (8 * w - 1) * 2 := by
    rw [← pow_succ, Nat.sub_add_cancel (by omega), pow_mul]
    norm_num
  have nonneg : 0 ≤ z % (256 ^ w : Nat) := Int.emod_nonneg _ (by positivity)
  have small : (z % (256 ^ w : Nat)).toNat < 256 ^ w := by
    have lt := Int.emod_lt_of_pos z (b := (256 ^ w : Nat)) (by positivity)
    omega
  have back : fromLeInt (leInt w z) = Int.bmod (z % (256 ^ w : Nat)) (256 ^ w) := by
    rw [fromLeInt, length_leInt, leInt, le, List.reverse_reverse, fromBe_be small,
      Int.toNat_of_nonneg nonneg]
  rw [back, Int.emod_bmod]
  obtain ⟨low, high⟩ := fits
  refine Int.bmod_eq_of_le_mul_two ?_ ?_
  · push_cast
    rw [power]
    linarith
  · push_cast
    rw [power]
    linarith

end Apitap.Copy
