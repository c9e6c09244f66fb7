import Apitap.Wire.PgRender
import Apitap.Wire.RowBinary

/-!
# One column of the Parquet lane

Which source columns the lane admits, the type each is delivered as, the Parquet field it is
declared as, and the builder that decodes its binary COPY fields. Floats are kept as their
bits, texts and decimals as their bytes.
-/

namespace Apitap.Parquet

open Foundation
open Copy (fromBe fromBeInt decimalShape pgEpochDays pgEpochMicros numericToScaledI128)

inductive Delivered where
  | int (bytes : Nat) (unsigned : Bool)
  | float32
  | float64
  | decimal (p s : Nat)
  | bool
  | date
  | dateTime (utc : Bool)
  | uuid
  | json
  | text
  | bytes
deriving DecidableEq, Repr

structure ColumnPlan where
  udt : String
  precision : Option Int
  scale : Option Int

def asU16 (z : Int) : Nat := (z % 2 ^ 16).toNat

/-- Nominal delivery for a Postgres type. -/
def deliveredOfUdt (c : ColumnPlan) : Delivered :=
  match c.udt with
  | "int2" => .int 2 false
  | "int4" => .int 4 false
  | "int8" => .int 8 false
  | "float4" => .float32
  | "float8" => .float64
  | "numeric" =>
      match c.precision, c.scale with
      | some p, some s =>
          let shape := decimalShape p s
          if shape.1 ≤ 76 then .decimal (asU16 shape.1) (asU16 shape.2) else .float64
      | _, _ => .float64
  | "bool" => .bool
  | "date" => .date
  | "timestamp" => .dateTime false
  | "timestamptz" => .dateTime true
  | "uuid" => .uuid
  | "bytea" => .bytes
  | "json" => .json
  | "jsonb" => .json
  | _ => .text

def pgNames : List String :=
  ["int2", "int4", "int8", "float4", "float8", "numeric", "bool", "date", "timestamp",
    "timestamptz", "uuid", "json", "jsonb", "text", "varchar", "bpchar", "name"]

def mysqlNames : List String :=
  ["tinyint", "smallint", "mediumint", "int", "bigint", "float", "double", "decimal", "datetime",
    "char", "tinytext", "mediumtext", "longtext", "enum", "set", "year", "time"]

/-- Whether a column decodes exactly from the typed binary stream. -/
def parquetDecodable (engine udt : String) : Bool :=
  udt ∈ pgNames || (engine = "mysql" && udt ∈ mysqlNames)

/-- Column-level go/no-go for the lane. -/
def parquetColOk (engine udt : String) (precision : Option Int) : Bool :=
  if !parquetDecodable engine udt then false
  else !(udt = "numeric" || udt = "decimal") ||
    match precision with
    | some p => 1 ≤ p && p ≤ 38
    | none => false

/-! ## Builders -/

inductive ColBuf where
  | i64 (v : List Int)
  | f32 (v : List Nat)
  | f64 (v : List Nat)
  | bool (v : List Bool)
  | dec (vals : List Bytes) (scale : Nat)
  | date (v : List Int)
  | ts (v : List Int)
  | bytes (v : List Bytes)
deriving DecidableEq

/-- The precision a decimal is declared with. -/
def clampPrecision (p : Nat) : Nat := if p = 0 ∨ 38 < p then 38 else p

namespace ColBuf

def new : Delivered → ColBuf
  | .int .. => .i64 []
  | .float32 => .f32 []
  | .float64 => .f64 []
  | .bool => .bool []
  | .decimal p s => .dec [] (min s (clampPrecision p))
  | .date => .date []
  | .dateTime _ => .ts []
  | .uuid => .bytes []
  | .json => .bytes []
  | .text => .bytes []
  | .bytes => .bytes []

/-- Resident bytes, for row-group sizing. -/
def size : ColBuf → Nat
  | .i64 v => v.length * 8
  | .f32 v => v.length * 4
  | .f64 v => v.length * 8
  | .bool v => v.length
  | .dec vals _ => vals.length * 48
  | .date v => v.length * 8
  | .ts v => v.length * 8
  | .bytes v => (v.map fun b => 48 + b.length).sum

def clear : ColBuf → ColBuf
  | .i64 _ => .i64 []
  | .f32 _ => .f32 []
  | .f64 _ => .f64 []
  | .bool _ => .bool []
  | .dec _ scale => .dec [] scale
  | .date _ => .date []
  | .ts _ => .ts []
  | .bytes _ => .bytes []

end ColBuf

def bad (what : String) : Error := .transfer ("pg binary COPY: unexpected " ++ what)

def infiniteDate : Error :=
  .transfer ("date 'infinity' has no BigQuery representation — cast or filter it in a source " ++
    "view")

def infiniteTimestamp : Error :=
  .transfer ("timestamp 'infinity' has no BigQuery representation — cast or filter it in a " ++
    "source view")

/-- Exactly `n` bytes. -/
def sized (n : Nat) (what : String) (f : Bytes) : Except (Stop Error) Bytes :=
  if f.length = n then .ok f else .error (.err (bad what))

/-- Sixteen bytes as hyphenated text, from the byte at `i` on. -/
def uuidText : Nat → Bytes → Bytes
  | _, [] => []
  | i, b :: bs =>
      (if i = 4 ∨ i = 6 ∨ i = 8 ∨ i = 10 then [45] else []) ++ BinDec.pushHex [b] ++
        uuidText (i + 1) bs

/-- A signed number as big-endian bytes, in two's complement. -/
def beInt (w : Nat) (z : Int) : Bytes := Copy.be w (z % (256 ^ w : Nat)).toNat

/-- Decode one field that is not NULL into a builder, and the resident bytes that adds. -/
def ColBuf.pushPg (f : Bytes) (d : Delivered) : ColBuf → Except (Stop Error) (ColBuf × Nat)
  | .i64 v =>
      if f.length = 2 ∨ f.length = 4 ∨ f.length = 8 then .ok (.i64 (v ++ [fromBeInt f]), 8)
      else .error (.err (bad ("int width " ++ toString f.length)))
  | .f32 v => (sized 4 "float4" f).map fun f => (.f32 (v ++ [fromBe f]), 4)
  | .f64 v => (sized 8 "float8" f).map fun f => (.f64 (v ++ [fromBe f]), 8)
  | .bool v => .ok (.bool (v ++ [f.headD 0 != 0]), 1)
  | .dec vals scale =>
      (numericToScaledI128 f scale).map fun x => (.dec (vals ++ [beInt 16 x]) scale, 48)
  | .date v =>
      (sized 4 "date" f).bind fun f =>
        let days := fromBeInt f
        if days = 2 ^ 31 - 1 ∨ days = -2 ^ 31 then .error (.err infiniteDate)
        else (Stop.orPanic (checked 32 (days + pgEpochDays))).map fun x => (.date (v ++ [x]), 8)
  | .ts v =>
      (sized 8 "timestamp" f).bind fun f =>
        let us := fromBeInt f
        if us = 2 ^ 63 - 1 ∨ us = -2 ^ 63 then .error (.err infiniteTimestamp)
        else
          (Stop.orErr (bad "timestamp out of range") (checked 64 (us + pgEpochMicros))).map
            fun x => (.ts (v ++ [x]), 8)
  | .bytes v =>
      match d with
      | .uuid => (sized 16 "uuid" f).map fun f => (.bytes (v ++ [uuidText 0 f]), 48 + 36)
      | .json =>
          match f with
          | 1 :: text => .ok (.bytes (v ++ [text]), 48 + text.length)
          | f => .ok (.bytes (v ++ [f]), 48 + f.length)
      | _ => .ok (.bytes (v ++ [f]), 48 + f.length)

/-! ## Schema -/

inductive Physical where
  | int64
  | int32
  | float
  | double
  | boolean
  | fixed (length : Nat)
  | byteArray
deriving DecidableEq

inductive Logical where
  | decimal (precision scale : Nat)
  | date
  | timestamp (utc : Bool)
  | string
deriving DecidableEq

structure ParquetField where
  name : String
  id : Int
  physical : Physical
  logical : Option Logical

/-- The field a delivered type is declared as; every field is optional. -/
def parquetField (name : String) (d : Delivered) (id : Int) : ParquetField :=
  match d with
  | .int .. => ⟨name, id, .int64, none⟩
  | .float32 => ⟨name, id, .float, none⟩
  | .float64 => ⟨name, id, .double, none⟩
  | .bool => ⟨name, id, .boolean, none⟩
  | .decimal p s =>
      ⟨name, id, .fixed 16, some (.decimal (clampPrecision p) (min s (clampPrecision p)))⟩
  | .date => ⟨name, id, .int32, some .date⟩
  | .dateTime utc => ⟨name, id, .int64, some (.timestamp utc)⟩
  | .uuid => ⟨name, id, .byteArray, some .string⟩
  | .json => ⟨name, id, .byteArray, some .string⟩
  | .text => ⟨name, id, .byteArray, some .string⟩
  | .bytes => ⟨name, id, .byteArray, none⟩

end Apitap.Parquet
