import Apitap.Foundation.Bitmap
import Apitap.Wire.BinlogCell
import Apitap.Wire.Pgoutput

/-!
# Events of a binlog

An event cut into its header and its body, a table map with its columns' metadata, and a rows
event: one or two images a row, the columns that are present by a bitmap, and NULLs by another
one over the columns present. A row that reads nothing while bytes are left is refused.
-/

namespace Apitap.Rows

open Foundation

/-! ## The event -/

structure EventHeader where
  timestamp : Nat
  eventType : Nat
  eventSize : Nat
  logPos : Nat
  flags : Nat
deriving DecidableEq, Repr

/-- A range of the bytes; one past their end is a panic. -/
def slice (b : Bytes) (first last : Nat) : Except (Stop Error) Bytes :=
  if first ≤ last ∧ last ≤ b.length then .ok ((b.take last).drop first) else .error .panic

def headerLen : Nat := 19

def eventHeader (ev : Bytes) : Except (Stop Error) EventHeader :=
  (slice ev 0 4).bind fun timestamp =>
    (slice ev 4 5).bind fun eventType =>
      (slice ev 9 13).bind fun eventSize =>
        (slice ev 13 17).bind fun logPos =>
          (slice ev 17 19).map fun flags =>
            ⟨fromLe timestamp, fromLe eventType, fromLe eventSize, fromLe logPos, fromLe flags⟩

def splitEvent (ev : Bytes) (checksummed : Bool) : Except (Stop Error) (EventHeader × Bytes) :=
  if ev.length < headerLen then .error (.err (bad "event shorter than its header"))
  else
    (eventHeader ev).bind fun h =>
      (if checksummed then
        Stop.orErr (bad "no room for checksum") (if 4 ≤ ev.length then some
          (ev.length - 4) else none)
        else .ok ev.length).bind fun last =>
          if last < headerLen then .error (.err (bad "event body underflow"))
          else (slice ev headerLen last).map (h, ·)

/-! ## The table map -/

/-- A table by its names and its columns. -/
structure TableMap where
  tableId : Nat
  db : String
  table : String
  cols : List ColDef
deriving DecidableEq, Repr

def metadataBytes (n : Nat) : Read Bytes := Cursor.take (.err (bad "meta underflow")) n

/-- The metadata of a column: one byte, two in either order, or none. -/
def columnMetadata (kind : Mt) : Read Nat :=
  match kind with
  | .float | .double | .blob | .tinyBlob | .mediumBlob | .longBlob | .geometry | .json | .time2
  | .datetime2 | .timestamp2 => (metadataBytes 1).andThen fun bs => .ret (fromLe bs)
  | .varchar | .varString => (metadataBytes 2).andThen fun bs => .ret (fromLe bs)
  | .string | .enum | .set | .newdecimal | .bit =>
      (metadataBytes 2).andThen fun bs => .ret (Copy.fromBe bs)
  | _ => .ret 0

/-- A bit of the nullability bitmap. -/
def nullableAt (bm : Bytes) (i : Nat) : Except (Stop Error) Bool :=
  (Stop.orPanic bm[i / 8]?).map fun b => b.toNat.testBit (i % 8)

/-- The columns from an index on, before the catalog adds to them. -/
def columns (bm : Bytes) : List (Mt × Nat) → Nat → Except (Stop Error) (List ColDef)
  | [], _ => .ok []
  | (kind, metadata) :: more, i =>
      (nullableAt bm i).bind fun nullable =>
        (columns bm more (i + 1)).map (⟨kind, metadata, nullable, false, false, none⟩ :: ·)

/-- A name, and the zero after it. -/
def name : Read Bytes :=
  u8.andThen fun len => (take len).andThen fun s => u8.andThen fun _ => .ret s

/-- `lossy` is `String::from_utf8_lossy`. -/
def tableMap (lossy : Bytes → String) : Read TableMap :=
  (uintLe 6).andThen fun tableId => (take 2).andThen fun _ =>
    name.andThen fun db => name.andThen fun table =>
      lenenc.andThen fun ncols => (take ncols).andThen fun kinds =>
        (lenenc.andThen take).andThen fun metablob =>
          (Cursor.lift ((Cursor.each columnMetadata (kinds.map fun b => Mt.ofByte b.toNat)
            metablob).map Prod.fst)).andThen fun metadata =>
              (take ((ncols + 7) / 8)).andThen fun bm =>
                (Cursor.lift (columns bm
                  ((kinds.map fun b => Mt.ofByte b.toNat).zip metadata) 0)).andThen fun cols =>
                    .ret ⟨tableId, lossy db, lossy table, cols⟩

def parseTableMap (lossy : Bytes → String) (body : Bytes) : Except (Stop Error) TableMap :=
  (tableMap lossy body).map Prod.fst

/-- What the catalog says of a table's columns, by position. -/
structure Catalog where
  unsigned : List Bool
  binaries : List Bool
  labels : List (Option (List Bytes))

/-- A table map with the catalog's facts on its columns. -/
def TableMap.withCatalog (m : TableMap) (sc : Catalog) : TableMap :=
  { m with
    cols := m.cols.zipIdx.map fun (c, i) =>
      { c with
        unsigned := sc.unsigned.getD i false
        binary := sc.binaries.getD i false
        labels := sc.labels.getD i none } }

/-! ## Rows -/

/-- A row's cells from an index on, rendered after a frame; `k` counts the columns present. -/
def readCells (floats : Decimal.Floats) (present nullbm : Bytes) :
    List ColDef → Nat → Nat → Bytes → Read (Bytes × List CellR)
  | [], _, _, frame => .ret (frame, [])
  | c :: cols, i, k, frame =>
      if Bitmap.bit present i = false then
        (readCells floats present nullbm cols (i + 1) k frame).andThen fun (frame, cells) =>
          .ret (frame, .unchangedToast :: cells)
      else if Bitmap.bit nullbm k then
        (readCells floats present nullbm cols (i + 1) (k + 1) frame).andThen fun (frame, cells) =>
          .ret (frame, .null :: cells)
      else
        (decodeCell floats c).andThen fun v =>
          (readCells floats present nullbm cols (i + 1) (k + 1) (frame ++ v)).andThen
            fun (whole, cells) =>
              .ret (whole, .text (frame.length % 2 ^ 32) (v.length % 2 ^ 32) :: cells)

def readRow (floats : Decimal.Floats) (cols : List ColDef) (present : Bytes) (ncols : Nat) :
    Read Tuple :=
  (take ((((List.range ncols).filter (Bitmap.bit present)).length + 7) / 8)).andThen fun nullbm =>
    (readCells floats present nullbm (cols.take ncols) 0 0 []).andThen fun (frame, cells) =>
      .ret ⟨frame, cells⟩

inductive RowOp where
  | insert
  | update
  | delete
deriving DecidableEq, Repr

def rowOp (kind : Nat) : Except (Stop Error) RowOp :=
  if kind = 30 ∨ kind = 23 then .ok .insert
  else if kind = 31 ∨ kind = 24 then .ok .update
  else if kind = 32 ∨ kind = 25 then .ok .delete
  else .error (.err (bad "not a rows event"))

/-- The part of a rows event in front of its rows. -/
structure RowsHead where
  tableId : Nat
  ncols : Nat
  present1 : Bytes
  present2 : Bytes

/-- The extra data of the second dialect, whose length counts itself. -/
def extraData (kind : Nat) : Read Bytes :=
  if kind = 30 ∨ kind = 31 ∨ kind = 32 then
    (uintLe 2).andThen fun extra => if 2 ≤ extra then take (extra - 2) else .ret []
  else .ret []

def foreignRows (ncols mapped : Nat) : Error :=
  bad ("rows event declares " ++ toString ncols ++ " columns but its table map declares " ++
    toString mapped ++ " — the event does not belong to that map, or the frame is damaged")

def rowsHead (kind : Nat) (op : RowOp) (mapped : Nat) : Read RowsHead :=
  (uintLe 6).andThen fun tableId => (take 2).andThen fun _ => (extraData kind).andThen fun _ =>
    lenenc.andThen fun ncols =>
      if ncols = 0 ∨ mapped < ncols then .fail (.err (foreignRows ncols mapped))
      else
        (take ((ncols + 7) / 8)).andThen fun present1 =>
          (if op = .update then take ((ncols + 7) / 8) else .ret []).andThen fun present2 =>
            .ret ⟨tableId, ncols, present1, present2⟩

/-- A row before and after. -/
abbrev Change := Option Tuple × Option Tuple

def rowChange (floats : Decimal.Floats) (cols : List ColDef) (op : RowOp) (h : RowsHead) :
    Read Change :=
  match op with
  | .insert => (readRow floats cols h.present1 h.ncols).andThen fun t => .ret (none, some t)
  | .delete => (readRow floats cols h.present1 h.ncols).andThen fun t => .ret (some t, none)
  | .update =>
      (readRow floats cols h.present1 h.ncols).andThen fun before =>
        (readRow floats cols h.present2 h.ncols).andThen fun after =>
          .ret (some before, some after)

def stalled : Error :=
  bad ("rows event stopped consuming bytes with data still left — a row " ++
    "that reads nothing would repeat for ever, so the frame is " ++
    "refused as damaged")

/-- Rows until no bytes are left; nothing where the turns do not suffice. -/
def rowsLoop (change : Read Change) : Nat → Bytes → Option (Except (Stop Error) (List Change))
  | 0, _ => none
  | turns + 1, b =>
      if b = [] then some (.ok [])
      else
        match change b with
        | .error e => some (.error e)
        | .ok (row, rest) =>
            if rest.length = b.length then some (.error (.err stalled))
            else (rowsLoop change turns rest).map fun rows => rows.map (row :: ·)

structure RowsEvent where
  tableId : Nat
  rows : List Change
deriving DecidableEq, Repr

def parseRows (floats : Decimal.Floats) (turns : Nat) (body : Bytes) (kind : Nat) (m : TableMap) :
    Option (Except (Stop Error) RowsEvent) :=
  match rowOp kind with
  | .error e => some (.error e)
  | .ok op =>
      match rowsHead kind op m.cols.length body with
      | .error e => some (.error e)
      | .ok (h, rest) =>
          (rowsLoop (rowChange floats m.cols op h) turns rest).map fun rows =>
            rows.map fun rows => ⟨h.tableId, rows⟩

end Apitap.Rows
