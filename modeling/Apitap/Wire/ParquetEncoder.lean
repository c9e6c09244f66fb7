import Apitap.Wire.CursorText

/-!
# The Parquet encoder

COPY bytes in, row groups out. A tuple is first walked over to see that it is complete and
then decoded into the builders; a row that brings them to the row group's bound is followed by
a flush. With a merge key a second file is written in lockstep, of that one column. The file
writers are what they are handed, and the builder and the definition levels of a column are
kept together.
-/

namespace Apitap.Parquet

open Foundation
open Mysource (Text)
open Copy (fromBe fromBeInt)
open Plan (wmMax)

/-- The key types a merge takes. -/
def mergeKeyOk : Delivered → Bool
  | .int .. => true
  | .uuid => true
  | .text => true
  | _ => false

/-- What an encoder is made with, the merge key being of a type the gate lets through. -/
structure Config where
  names : List String
  delivered : List Delivered
  /-- The cursor's column, and whether it compares as a number. -/
  cursor : Option (Nat × Bool)
  rowGroup : Nat
  keyCol : Option Nat
  required : List Bool
  chrono : Chrono
  key_ok : ∀ k ∈ keyCol, ∃ d ∈ delivered[k]?, mergeKeyOk d = true

/-- A value handed to a column writer. -/
inductive Value where
  | int (z : Int)
  | float (bits : Nat)
  | bool (b : Bool)
  | bytes (b : Bytes)
deriving DecidableEq

/-- What one `write_batch` is given: the values of a column, a date narrowed to 32 bits, and
its definition levels. -/
abbrev Batch := List Value × List Nat

def ColBuf.values : ColBuf → List Value
  | .i64 v => v.map .int
  | .f32 v => v.map .float
  | .f64 v => v.map .float
  | .bool v => v.map .bool
  | .dec vals _ => vals.map .bytes
  | .date v => v.map fun days => .int (Int.bmod days (2 ^ 32))
  | .ts v => v.map .int
  | .bytes v => v.map .bytes

/-- A column's builder and definition levels. -/
structure Column where
  delivered : Delivered
  buf : ColBuf
  defs : List Nat

def Column.new (d : Delivered) : Column := ⟨d, .new d, []⟩

def Column.clear (c : Column) : Column := ⟨c.delivered, c.buf.clear, []⟩

def Column.batch (c : Column) : Batch := (c.buf.values, c.defs)

/-- What the two parts of a column hold, the levels at two bytes each. -/
def Column.size (c : Column) : Nat := c.buf.size + 2 * c.defs.length

/-- The builders and what was handed to the writers. -/
structure Builders where
  cols : List Column
  wm : Option Text
  groupBytes : Nat
  /-- The row groups of the closed files, and of the open one. -/
  files : List (List (List Batch))
  «open» : List (List Batch)
  /-- The same of the key companion, with the rows of its open file. -/
  keyFiles : List (List Batch)
  keyOpen : List Batch
  keyRows : Nat

/-- The builders behind the COPY framing. -/
structure Encoder where
  built : Builders
  buf : Bytes
  pos : Nat
  headerDone : Bool
  finished : Bool

def Builders.new (cfg : Config) : Builders where
  cols := cfg.delivered.map Column.new
  wm := none
  groupBytes := 0
  files := []
  «open» := []
  keyFiles := []
  keyOpen := []
  keyRows := 0

def Encoder.new (cfg : Config) : Encoder := ⟨.new cfg, [], 0, false, false⟩

/-! ## A tuple -/

/-- `n` bytes at a place of the frame. -/
def sub (b : Bytes) (o n : Nat) : Except (Stop Error) Bytes :=
  if o + n ≤ b.length then .ok ((b.drop o).take n) else .error .panic

def corrupt (len : Int) : Error :=
  .transfer ("pg binary COPY: corrupt field length " ++ toString len)

/-- Over the length prefixes of `n` fields: where they end, or too few bytes. -/
def walk (b : Bytes) : Nat → Nat → Except (Stop Error) (Option Nat)
  | 0, off => .ok (some off)
  | n + 1, off =>
      if b.length < off + 4 then .ok none
      else
        (sub b off 4).bind fun w =>
          let len := fromBeInt w
          if len < -1 then .error (.err (corrupt len))
          else if 0 < len then
            if b.length < off + 4 + len.toNat then .ok none else walk b n (off + 4 + len.toNat)
          else walk b n (off + 4)

/-- The field at a place, and the place behind it. -/
def fieldAt (b : Bytes) (o : Nat) : Except (Stop Error) (Option Bytes × Nat) :=
  (sub b o 4).bind fun w =>
    let len := fromBeInt w
    if len = -1 then .ok (none, o + 4)
    else (sub b (o + 4) len.toNat).map fun f => (some f, o + 4 + len.toNat)

def keyNull : Error :=
  .transfer "merge key column contains NULL — a merge key must identify its row"

def requiredNull (name : String) : Error :=
  .invalidInput ("column '" ++ name ++ "' is REQUIRED in the destination table and a source " ++
    "row holds NULL in it — written anyway, readers would trust a NOT NULL that does not " ++
    "hold. Fill the NULLs in a source view (COALESCE), or make the column optional in the " ++
    "destination")

namespace Config

variable (cfg : Config)

/-- The watermark after a field of column `i` that is not NULL. -/
def mark (i : Nat) (d : Delivered) (f : Bytes) (wm : Option Text) :
    Except (Stop Error) (Option Text) :=
  match cfg.cursor with
  | some (idx, numeric) =>
      if i = idx then (renderCursor cfg.chrono d f).map fun v => wmMax wm (some v) numeric
      else .ok wm
  | none => .ok wm

/-- One field into its column: the column, the bytes that adds, the watermark. -/
def cell (i : Nat) (c : Column) (wm : Option Text) :
    Option Bytes → Except (Stop Error) (Column × Nat × Option Text)
  | none =>
      if cfg.keyCol = some i then .error (.err keyNull)
      else if cfg.required.getD i false then
        .error (.err (requiredNull (cfg.names.getD i "")))
      else .ok ({ c with defs := c.defs ++ [0] }, 2, wm)
  | some f =>
      (c.buf.pushPg f c.delivered).bind fun pushed =>
        (cfg.mark i c.delivered f wm).map fun wm =>
          ({ c with buf := pushed.1, defs := c.defs ++ [1] }, pushed.2 + 2, wm)

/-- The fields from column `i` on, from a place of the frame. -/
def decode (b : Bytes) : Nat → List Column → Option Text → Nat →
    Except (Stop Error) (List Column × Nat × Option Text)
  | _, [], wm, _ => .ok ([], 0, wm)
  | i, c :: cs, wm, o =>
      (fieldAt b o).bind fun field =>
        (cfg.cell i c wm field.1).bind fun one =>
          (decode b (i + 1) cs one.2.2 field.2).map fun rest =>
            (one.1 :: rest.1, one.2.1 + rest.2.1, rest.2.2)

end Config

def wrongCount (ncols : Int) (expected : Nat) : Error :=
  .transfer ("pg binary COPY: tuple has " ++ toString ncols ++ " fields, expected " ++
    toString expected)

namespace Builders

variable (cfg : Config) (s : Builders)

/-- The tuple at the start of `b`: how long it is and the builders behind it, or the trailer;
nothing where it is not complete. -/
def tryTuple (b : Bytes) : Except (Stop Error) (Option (Nat × Option Builders)) :=
  if b.length < 2 then .ok none
  else
    let ncols := fromBeInt (b.take 2)
    if ncols = -1 then .ok (some (2, none))
    else if ncols ≠ s.cols.length then .error (.err (wrongCount ncols s.cols.length))
    else
      (walk b s.cols.length 2).bind fun
        | none => .ok none
        | some off => (cfg.decode b 0 s.cols s.wm 2).map fun row =>
            some (off, some { s with
              cols := row.1, groupBytes := s.groupBytes + row.2.1, wm := row.2.2 })

def rowsBuffered : Nat := (s.cols.head?.map fun c => c.defs.length).getD 0

/-- The key column's batch, from an integer or a text builder. -/
def keyBatch (k : Nat) : Except (Stop Error) Batch :=
  match s.cols[k]? with
  | some ⟨_, .i64 v, defs⟩ => .ok (v.map .int, defs)
  | some ⟨_, .bytes v, defs⟩ => .ok (v.map .bytes, defs)
  | some _ => .error (.err (.transfer "merge key builder is not I64/Bytes: gate bypassed"))
  | none => .error .panic

/-- The builders emptied. -/
def cleared : Builders := { s with cols := s.cols.map Column.clear, groupBytes := 0 }

/-- Write the buffered rows as one row group. -/
def flushRowGroup : Except (Stop Error) Builders :=
  if s.rowsBuffered = 0 then .ok s
  else
    let buffered := s.rowsBuffered
    let s := { s with «open» := s.open ++ [s.cols.map Column.batch] }
    match cfg.keyCol with
    | some k => (s.keyBatch k).map fun batch =>
        cleared { s with keyOpen := s.keyOpen ++ [batch], keyRows := s.keyRows + buffered }
    | none => .ok s.cleared

/-- Close the current file and open the next: the rows of the closed key file. -/
def finishFile : Except (Stop Error) (Builders × Option Nat) :=
  (s.flushRowGroup cfg).map fun s =>
    let s := { s with files := s.files ++ [s.open], «open» := [] }
    match cfg.keyCol with
    | some _ =>
        ({ s with keyFiles := s.keyFiles ++ [s.keyOpen], keyOpen := [], keyRows := 0 },
          some s.keyRows)
    | none => (s, none)

end Builders

namespace Encoder

variable (cfg : Config) (s : Encoder)

/-- Tuples of the frame while there are whole ones, and how many. -/
def turns : Nat → Encoder → Except (Stop Error) (Encoder × Nat)
  | 0, _ => .error .panic
  | fuel + 1, s =>
      if s.finished then .ok (s, 0)
      else
        (s.built.tryTuple cfg (s.buf.drop s.pos)).bind fun
          | none => .ok (s, 0)
          | some (n, none) => turns fuel { s with pos := s.pos + n, finished := true }
          | some (n, some built) =>
              (if cfg.rowGroup ≤ built.groupBytes then built.flushRowGroup cfg
              else .ok built).bind fun built =>
                (turns fuel { s with built, pos := s.pos + n }).map fun r => (r.1, r.2 + 1)

/-- The header and its extension, where they are complete. -/
def header (b : Bytes) : Except (Stop Error) (Option Nat) :=
  if b.length < 19 then .ok none
  else if b.take 11 ≠ Copy.signature then .error (.err (.transfer "pg binary COPY: bad header"))
  else
    let ext := fromBe ((b.drop 15).take 4)
    if b.length < 19 + ext then .ok none else .ok (some (19 + ext))

/-- The frame before more input: a consumed one is dropped, a long consumed part cut off. -/
def compact : Encoder :=
  let s := if 0 < s.pos ∧ s.pos = s.buf.length then { s with buf := [], pos := 0 } else s
  if 2 ^ 20 < s.pos then { s with buf := s.buf.drop s.pos, pos := 0 } else s

def afterTrailer (n : Nat) : Error :=
  .transfer ("pg binary COPY: " ++ toString n ++ " bytes after the trailer")

/-- The tuples of the frame, where no byte may follow the trailer. -/
def drain : Except (Stop Error) (Encoder × Nat) :=
  (turns cfg (s.buf.length + 1) s).bind fun r =>
    if r.1.finished ∧ r.1.pos < r.1.buf.length then
      .error (.err (afterTrailer (r.1.buf.length - r.1.pos)))
    else .ok r

/-- Feed COPY bytes: the rows completed. -/
def push (input : Bytes) : Except (Stop Error) (Encoder × Nat) :=
  let s := s.compact
  let s := { s with buf := s.buf ++ input }
  if s.headerDone then s.drain cfg
  else
    (header (s.buf.drop s.pos)).bind fun
      | none => .ok (s, 0)
      | some n => drain cfg { s with pos := s.pos + n, headerDone := true }

end Encoder

end Apitap.Parquet
