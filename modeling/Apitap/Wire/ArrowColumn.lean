import Apitap.Foundation.Utf8
import Apitap.Wire.ParquetColumn

/-!
# Arrow column builders

A column in the layout Arrow wants it in: a bitmap of the rows that are not NULL, from the first
NULL on, with fixed-width values, a bitmap of booleans, or bytes with the offsets of their ends.
Rows come as fields of a binary COPY or as values, and leave in sealed batches.
-/

namespace Apitap.Arrow

open Foundation
open Copy (fromBe fromBeInt pgEpochDays pgEpochMicros numericToScaledI128)
open Parquet (bad sized)

inductive ArrowKind where
  | int16
  | int32
  | int64
  | float32
  | float64
  | bool
  | decimal (p : Nat) (s : Int)
  | date32
  | timestampUtc
  | timestampNaive
  | utf8
  | binary
deriving DecidableEq

/-- One sealed column; floats are kept as their bits. -/
inductive FinishedCol where
  | i16 (validity : Option Bytes) (data : List Int)
  | i32 (validity : Option Bytes) (data : List Int)
  | i64 (validity : Option Bytes) (data : List Int)
  | f32 (validity : Option Bytes) (data : List Nat)
  | f64 (validity : Option Bytes) (data : List Nat)
  | bool (validity : Option Bytes) (data : Bytes)
  | dec128 (validity : Option Bytes) (data : List Int)
  | utf8 (validity : Option Bytes) (offsets : List Int) (data : Bytes)
  | bin (validity : Option Bytes) (offsets : List Int) (data : Bytes)
deriving DecidableEq

structure ArrowBatch where
  rows : Nat
  cols : List FinishedCol
deriving DecidableEq

/-- Append the bit of a row, the first one lowest. -/
def pushBit (bm : Bytes) (row : Nat) (on : Bool) : Bytes :=
  let bm := if row % 8 = 0 then bm ++ [0] else bm
  if on then bm.modify (bm.length - 1) (· ||| UInt8.ofNat (1 <<< (row % 8))) else bm

/-- A bitmap is kept from the first NULL on; what came before is filled in. -/
def mark (v : Option Bytes) (row : Nat) (valid : Bool) : Option Bytes :=
  match v with
  | some bm => some (pushBit bm row valid)
  | none =>
      if valid then none
      else
        let bm : Bytes := List.replicate (row / 8) 0xFF
        let bm := if row % 8 ≠ 0 then bm ++ [UInt8.ofNat ((1 <<< (row % 8)) - 1)] else bm
        some (pushBit bm row false)

inductive ColB where
  | i16 (v : Option Bytes) (d : List Int)
  | i32 (v : Option Bytes) (d : List Int)
  | i64 (v : Option Bytes) (d : List Int)
  | f32 (v : Option Bytes) (d : List Nat)
  | f64 (v : Option Bytes) (d : List Nat)
  | bool (v : Option Bytes) (d : Bytes)
  | dec (v : Option Bytes) (d : List Int) (s : Nat)
  | d32 (v : Option Bytes) (d : List Int)
  | ts (v : Option Bytes) (d : List Int)
  | utf8 (v : Option Bytes) (off : List Int) (d : Bytes)
  | bin (v : Option Bytes) (off : List Int) (d : Bytes)
deriving DecidableEq

/-- A cell for the row-major surface. -/
inductive CellVal where
  | null
  | i16 (x : Int)
  | i32 (x : Int)
  | i64 (x : Int)
  | f32 (x : Nat)
  | f64 (x : Nat)
  | bool (x : Bool)
  | dec128 (x : Int)
  | dateDays (x : Int)
  | tsMicros (x : Int)
  | str (b : Bytes)
  | bin (b : Bytes)
deriving DecidableEq

/-- `as i32` of a length. -/
def asI32 (n : Nat) : Int := Int.bmod n (2 ^ 32)

def pastOffsets : Error := bad "varlen column past i32 offsets in one batch"

/-- `i32::try_from` of a length. -/
def tryI32 (n : Nat) : Except (Stop Error) Int :=
  if n ≤ 2 ^ 31 - 1 then .ok n else .error (.err pastOffsets)

def infiniteDate : Error :=
  .transfer ("date 'infinity' has no Arrow representation — cast or filter it in a source view")

def infiniteTimestamp : Error :=
  .transfer ("timestamp 'infinity' has no Arrow representation — cast or filter it in a source " ++
    "view")

/-- Exactly `n` bytes of an integer. -/
def intSized (n : Nat) (what : String) (f : Bytes) : Except (Stop Error) Bytes :=
  if f.length = n then .ok f else .error (.err (bad (what ++ " width " ++ toString f.length)))

namespace ColB

def new : ArrowKind → ColB
  | .int16 => .i16 none []
  | .int32 => .i32 none []
  | .int64 => .i64 none []
  | .float32 => .f32 none []
  | .float64 => .f64 none []
  | .bool => .bool none []
  | .decimal _ s => .dec none [] s.toNat
  | .date32 => .d32 none []
  | .timestampUtc => .ts none []
  | .timestampNaive => .ts none []
  | .utf8 => .utf8 none [0] []
  | .binary => .bin none [0] []

/-- Resident bytes. -/
def bytes : ColB → Nat
  | .i16 _ d => d.length * 2
  | .i32 _ d => d.length * 4
  | .d32 _ d => d.length * 4
  | .i64 _ d => d.length * 8
  | .ts _ d => d.length * 8
  | .f32 _ d => d.length * 4
  | .f64 _ d => d.length * 8
  | .bool _ d => d.length
  | .dec _ d _ => d.length * 16
  | .utf8 _ off d => d.length + off.length * 4
  | .bin _ off d => d.length + off.length * 4

/-- The buffers as they leave, and the column they leave behind. -/
def sealCol : ColB → FinishedCol × ColB
  | .i16 v d => (.i16 v d, .i16 none [])
  | .i32 v d => (.i32 v d, .i32 none [])
  | .d32 v d => (.i32 v d, .d32 none [])
  | .i64 v d => (.i64 v d, .i64 none [])
  | .ts v d => (.i64 v d, .ts none [])
  | .f32 v d => (.f32 v d, .f32 none [])
  | .f64 v d => (.f64 v d, .f64 none [])
  | .bool v d => (.bool v d, .bool none [])
  | .dec v d s => (.dec128 v d, .dec none [] s)
  | .utf8 v off d => (.utf8 v off d, .utf8 none [0] [])
  | .bin v off d => (.bin v off d, .bin none [0] [])

/-- One decoded cell of row `r`. A cell of another kind is a construction bug. -/
def appendCell (r : Nat) : ColB → CellVal → Option ColB
  | .i16 v d, .i16 x => some (.i16 (mark v r true) (d ++ [x]))
  | .i32 v d, .i32 x => some (.i32 (mark v r true) (d ++ [x]))
  | .i64 v d, .i64 x => some (.i64 (mark v r true) (d ++ [x]))
  | .f32 v d, .f32 x => some (.f32 (mark v r true) (d ++ [x]))
  | .f64 v d, .f64 x => some (.f64 (mark v r true) (d ++ [x]))
  | .bool v d, .bool x => some (.bool (mark v r true) (pushBit d r x))
  | .dec v d s, .dec128 x => some (.dec (mark v r true) (d ++ [x]) s)
  | .d32 v d, .dateDays x => some (.d32 (mark v r true) (d ++ [x]))
  | .ts v d, .tsMicros x => some (.ts (mark v r true) (d ++ [x]))
  | .utf8 v off d, .str b =>
      some (.utf8 (mark v r true) (off ++ [asI32 (d ++ b).length]) (d ++ b))
  | .bin v off d, .bin b =>
      some (.bin (mark v r true) (off ++ [asI32 (d ++ b).length]) (d ++ b))
  | .i16 v d, .null => some (.i16 (mark v r false) (d ++ [0]))
  | .i32 v d, .null => some (.i32 (mark v r false) (d ++ [0]))
  | .d32 v d, .null => some (.d32 (mark v r false) (d ++ [0]))
  | .i64 v d, .null => some (.i64 (mark v r false) (d ++ [0]))
  | .ts v d, .null => some (.ts (mark v r false) (d ++ [0]))
  | .f32 v d, .null => some (.f32 (mark v r false) (d ++ [0]))
  | .f64 v d, .null => some (.f64 (mark v r false) (d ++ [0]))
  | .bool v d, .null => some (.bool (mark v r false) (pushBit d r false))
  | .dec v d s, .null => some (.dec (mark v r false) (d ++ [0]) s)
  | .utf8 v off d, .null => some (.utf8 (mark v r false) (off ++ [asI32 d.length]) d)
  | .bin v off d, .null => some (.bin (mark v r false) (off ++ [asI32 d.length]) d)
  | _, _ => none

/-- One staged field of row `r`. -/
def decodeField (r : Nat) : ColB → Option Bytes → Except (Stop Error) ColB
  | .i16 v d, none => .ok (.i16 (mark v r false) (d ++ [0]))
  | .i16 v d, some f =>
      (intSized 2 "int2" f).map fun f => .i16 (mark v r true) (d ++ [fromBeInt f])
  | .i32 v d, none => .ok (.i32 (mark v r false) (d ++ [0]))
  | .i32 v d, some f =>
      (intSized 4 "int4" f).map fun f => .i32 (mark v r true) (d ++ [fromBeInt f])
  | .i64 v d, none => .ok (.i64 (mark v r false) (d ++ [0]))
  | .i64 v d, some f =>
      (intSized 8 "int8" f).map fun f => .i64 (mark v r true) (d ++ [fromBeInt f])
  | .f32 v d, none => .ok (.f32 (mark v r false) (d ++ [0]))
  | .f32 v d, some f => (sized 4 "float4" f).map fun f => .f32 (mark v r true) (d ++ [fromBe f])
  | .f64 v d, none => .ok (.f64 (mark v r false) (d ++ [0]))
  | .f64 v d, some f => (sized 8 "float8" f).map fun f => .f64 (mark v r true) (d ++ [fromBe f])
  | .bool v d, none => .ok (.bool (mark v r false) (pushBit d r false))
  | .bool v d, some f => .ok (.bool (mark v r true) (pushBit d r (f.headD 0 != 0)))
  | .dec v d s, none => .ok (.dec (mark v r false) (d ++ [0]) s)
  | .dec v d s, some f =>
      (numericToScaledI128 f s).map fun x => .dec (mark v r true) (d ++ [x]) s
  | .d32 v d, none => .ok (.d32 (mark v r false) (d ++ [0]))
  | .d32 v d, some f =>
      (sized 4 "date" f).bind fun f =>
        let days := fromBeInt f
        if days = 2 ^ 31 - 1 ∨ days = -2 ^ 31 then .error (.err infiniteDate)
        else (Stop.orErr (bad "date range") (checked 32 (days + pgEpochDays))).map fun x =>
          .d32 (mark v r true) (d ++ [x])
  | .ts v d, none => .ok (.ts (mark v r false) (d ++ [0]))
  | .ts v d, some f =>
      (sized 8 "timestamp" f).bind fun f =>
        let us := fromBeInt f
        if us = 2 ^ 63 - 1 ∨ us = -2 ^ 63 then .error (.err infiniteTimestamp)
        else (Stop.orErr (bad "timestamp range") (checked 64 (us + pgEpochMicros))).map fun x =>
          .ts (mark v r true) (d ++ [x])
  | .utf8 v off d, none => .ok (.utf8 (mark v r false) (off ++ [off.getLastD 0]) d)
  | .utf8 v off d, some f =>
      (tryI32 (d ++ f).length).map fun o => .utf8 (mark v r true) (off ++ [o]) (d ++ f)
  | .bin v off d, none => .ok (.bin (mark v r false) (off ++ [off.getLastD 0]) d)
  | .bin v off d, some f =>
      (tryI32 (d ++ f).length).map fun o => .bin (mark v r true) (off ++ [o]) (d ++ f)

/-- The staged fields of a column, from row `r` on. -/
def decodeFields : Nat → ColB → List (Option Bytes) → Except (Stop Error) ColB
  | _, col, [] => .ok col
  | r, col, f :: fs => (col.decodeField r f).bind fun col => decodeFields (r + 1) col fs

/-- The data of a varlen column. -/
def varlen? : ColB → Option Bytes
  | .utf8 _ _ d => some d
  | .bin _ _ d => some d
  | _ => none

/-- The data of a text column. -/
def text? : ColB → Option Bytes
  | .utf8 _ _ d => some d
  | _ => none

end ColB

/-- Where a varlen column seals its batch whatever the byte target is. -/
def varlenSeal : Nat := 1 <<< 30

/-- The builder of one worker's batches. -/
structure BatchBuilder where
  cols : List ColB
  batchBytes : Nat
  varlenSeal : Nat
  /-- Rows in the batch that is not sealed yet. -/
  rows : Nat
  rowsSealed : Nat
  /-- The tail that is not consumed. -/
  buf : Bytes
  inSpan : Bool
  /-- The payload left of a message. -/
  frLeft : Nat

namespace BatchBuilder

def new (kinds : List ArrowKind) (batchBytes : Nat) : BatchBuilder :=
  ⟨kinds.map ColB.new, batchBytes, Arrow.varlenSeal, 0, 0, [], false, 0⟩

/-- Decode staged tuples column by column, each tuple with a field for every column. -/
def decodeStaged (b : BatchBuilder) (staged : List (List (Option Bytes))) :
    Except (Stop Error) BatchBuilder :=
  let column (col : ColB × Nat) :=
    col.1.decodeFields b.rows (staged.map fun row => row[col.2]?.join)
  (b.cols.zipIdx.mapM column).map fun cols =>
    { b with cols := cols, rows := b.rows + staged.length }

/-- One cell of the current row. -/
def appendCell (b : BatchBuilder) (c : Nat) (x : CellVal) : Option BatchBuilder :=
  b.cols[c]?.bind fun col => (col.appendCell b.rows x).map fun col =>
    { b with cols := b.cols.set c col }

/-- Close the current row. -/
def rowDone (b : BatchBuilder) : BatchBuilder := { b with rows := b.rows + 1 }

/-- The cells of a row, from column `c` on. -/
def appendCells : Nat → BatchBuilder → List CellVal → Option BatchBuilder
  | _, b, [] => some b
  | c, b, x :: xs => (b.appendCell c x).bind fun b => appendCells (c + 1) b xs

def accBytes (b : BatchBuilder) : Nat := (b.cols.map ColB.bytes).sum

/-- Every varlen column must address within 32-bit offsets. -/
def checkOffsets (b : BatchBuilder) : Except (Stop Error) Unit :=
  if b.cols.any fun col => col.varlen?.any fun d => 2 ^ 31 - 1 < d.length then
    .error (.err pastOffsets)
  else .ok ()

def notUtf8 (i : Nat) : Error :=
  .transfer (s!"column {i} (0-based) holds text that is not valid UTF-8; Arrow text must be — " ++
    "cast it to bytea on the source, or fix the encoding")

/-- Arrow text must be valid UTF-8, checked once for each buffer. -/
def checkUtf8 (b : BatchBuilder) : Except (Stop Error) Unit :=
  match b.cols.zipIdx.find? fun col => col.1.text?.any fun d => !Utf8.valid d with
  | some (_, i) => .error (.err (notUtf8 i))
  | none => .ok ()

def sealBatch (b : BatchBuilder) : Except (Stop Error) (ArrowBatch × BatchBuilder) :=
  (checkOffsets b).bind fun _ => (checkUtf8 b).map fun _ =>
    (⟨b.rows, b.cols.map fun col => col.sealCol.1⟩,
      { b with
        rows := 0
        rowsSealed := b.rowsSealed + b.rows
        cols := b.cols.map fun col => col.sealCol.2 })

/-- The largest varlen buffer. -/
def varlenMax (b : BatchBuilder) : Nat :=
  (b.cols.map fun col => (col.varlen?.map List.length).getD 0).foldl max 0

/-- A sealed batch, where a threshold is crossed. -/
def takeReady (b : BatchBuilder) : Except (Stop Error) (Option ArrowBatch × BatchBuilder) :=
  if b.rows = 0 ∨ (b.accBytes < b.batchBytes ∧ b.varlenMax < b.varlenSeal) then .ok (none, b)
  else b.sealBatch.map fun (batch, b) => (some batch, b)

def noTrailer : Error := .transfer "pg binary COPY: stream ended without the trailer"

/-- The last batch, where there are rows. -/
def finish (b : BatchBuilder) : Except (Stop Error) (Option ArrowBatch × BatchBuilder) :=
  if b.inSpan || !b.buf.isEmpty then .error (.err noTrailer)
  else if b.rows = 0 then .ok (none, b)
  else b.sealBatch.map fun (batch, b) => (some batch, b)

end BatchBuilder

end Apitap.Arrow
