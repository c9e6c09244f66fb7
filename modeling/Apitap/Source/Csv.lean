import Apitap.Foundation.Transducer
import Mathlib.Algebra.Order.Ring.Nat
import Mathlib.Data.List.Basic

/-!
# CSV objects

`CsvPump` feeds a byte stream, chunk by chunk, to a parser that hands back a slice of a
record at a time, and delivers whole records. The parser is a parameter: a resumable
reader of RFC 4180, which ends a record at a line end, a field at a comma, and drops the
byte-order mark its first read starts with.
-/

namespace Apitap.Csv

open Foundation

abbrev Byte := UInt8

abbrev comma : Byte := 0x2C
abbrev quote : Byte := 0x22
abbrev cr : Byte := 0x0D
abbrev lf : Byte := 0x0A

/-- The UTF-8 byte-order mark. -/
def mark : List Byte := [0xEF, 0xBB, 0xBF]

/-! ## RFC 4180 -/

inductive St where
  | startRecord
  | startField
  | inField
  | inQuoted
  /-- After a quote inside a quoted field: its end, or the first of two. -/
  | quoteInQuoted
  /-- After a carriage return that ended a record. -/
  | crlf
deriving DecidableEq

/-- What reading a byte does. -/
inductive Act where
  | skip
  | copy (b : Byte)
  | field
  | record
deriving DecidableEq

/-- A byte of a field that is not quoted. -/
def St.plain (b : Byte) : St × Act :=
  if b = comma then (.startField, .field)
  else if b = cr then (.crlf, .record)
  else if b = lf then (.startRecord, .record)
  else (.inField, .copy b)

def St.atField (b : Byte) : St × Act := if b = quote then (.inQuoted, .skip) else plain b

/-- Line ends before a record are no records. -/
def St.atRecord (b : Byte) : St × Act :=
  if b = cr ∨ b = lf then (.startRecord, .skip) else atField b

def St.step : St → Byte → St × Act
  | .startRecord, b => atRecord b
  | .crlf, b => if b = lf then (.startRecord, .skip) else atRecord b
  | .startField, b => atField b
  | .inField, b => plain b
  | .inQuoted, b => if b = quote then (.quoteInQuoted, .skip) else (.inQuoted, .copy b)
  | .quoteInQuoted, b => if b = quote then (.inQuoted, .copy b) else plain b

/-- Nothing of a record has been read. -/
def St.between : St → Bool
  | .startRecord | .crlf => true
  | _ => false

/-- A record: its fields' bytes in a row, and where each ends. -/
structure CsvRow where
  out : List Byte
  ends : List Nat
deriving DecidableEq

namespace CsvRow

def field (r : CsvRow) (i : Nat) : List Byte :=
  let start := if i = 0 then 0 else r.ends.getD (i - 1) 0
  (r.out.drop start).take (r.ends.getD i 0 - start)

def len (r : CsvRow) : Nat := r.ends.length

def fields (r : CsvRow) : List (List Byte) := (List.range r.len).map r.field

end CsvRow

/-- A record as far as it has been read. -/
structure Partial where
  st : St
  out : List Byte
  ends : List Nat
deriving DecidableEq

namespace Partial

def start : Partial := ⟨.startRecord, [], []⟩

def row (q : Partial) : CsvRow := ⟨q.out, q.ends ++ [q.out.length]⟩

def byte (q : Partial) (b : Byte) : Partial × Option CsvRow :=
  match q.st.step b with
  | (st, .skip) => ({ q with st := st }, none)
  | (st, .copy c) => ({ q with st := st, out := q.out ++ [c] }, none)
  | (st, .field) => ({ q with st := st, ends := q.ends ++ [q.out.length] }, none)
  | (st, .record) => (⟨st, [], []⟩, some q.row)

/-- The record the end of the data leaves, when one has begun. -/
def last (q : Partial) : Option CsvRow := if q.st.between then none else some q.row

end Partial

/-- The automaton, byte by byte. -/
def rfc4180 : Transducer Partial Byte CsvRow := ⟨Partial.byte⟩

/-- The records of a text. -/
def records (text : List Byte) : List CsvRow :=
  rfc4180.emits .start text ++ (rfc4180.state .start text).last.toList

/-! ## The parser -/

inductive ReadRecordResult where
  | inputEmpty
  | outputFull
  | outputEndsFull
  | record
  | finished
deriving DecidableEq

/-- What one call reads of its input, and what it writes. -/
structure Read (R : Type) where
  result : ReadRecordResult
  nin : Nat
  out : List Byte
  ends : List Nat
  reader : R

/-- The parser's interface: its input, the room in the output and the room for ends. -/
structure CsvCore where
  Reader : Type
  new : Reader
  readRecord : Reader → List Byte → Nat → Nat → Read Reader

/-- A reader's state: the automaton's, the length of the record so far, and whether it
has read. -/
structure Seat where
  st : St
  pos : Nat
  hasRead : Bool
deriving DecidableEq

/-- Read until a record ends, the input is used up, or there is no more room. -/
def scan (st : St) (pos : Nat) : List Byte → Nat → Nat → Read Seat
  | [], _, _ => ⟨.inputEmpty, 0, [], [], ⟨st, pos, true⟩⟩
  | _ :: _, 0, _ => ⟨.outputFull, 0, [], [], ⟨st, pos, true⟩⟩
  | _ :: _, _ + 1, 0 => ⟨.outputEndsFull, 0, [], [], ⟨st, pos, true⟩⟩
  | b :: rest, room + 1, slots + 1 =>
      match st.step b with
      | (st, .skip) =>
          let r := scan st pos rest (room + 1) (slots + 1)
          { r with nin := r.nin + 1 }
      | (st, .copy c) =>
          let r := scan st (pos + 1) rest room (slots + 1)
          { r with nin := r.nin + 1, out := c :: r.out }
      | (st, .field) =>
          let r := scan st pos rest (room + 1) slots
          { r with nin := r.nin + 1, ends := pos :: r.ends }
      | (st, .record) => ⟨.record, 1, [], [pos], ⟨st, 0, true⟩⟩

/-- The end of the data. -/
def flush (st : St) (pos slots : Nat) : Read Seat :=
  if st.between then ⟨.finished, 0, [], [], ⟨.startRecord, pos, true⟩⟩
  else if slots = 0 then ⟨.outputEndsFull, 0, [], [], ⟨st, pos, true⟩⟩
  else ⟨.record, 0, [], [pos], ⟨.startRecord, 0, true⟩⟩

/-- One call: the mark at the front of the first input is dropped, and no input is the
end of the data. -/
def readRecord (seat : Seat) (input : List Byte) (room slots : Nat) : Read Seat :=
  let skipped := if ¬ seat.hasRead ∧ mark <+: input then 3 else 0
  let r := match input.drop skipped with
    | [] => flush seat.st seat.pos slots
    | b :: rest => scan seat.st seat.pos (b :: rest) room slots
  { r with nin := r.nin + skipped }

/-- The parser is a resumable reader of RFC 4180. -/
structure CsvCore.Resumes (core : CsvCore) where
  seat : core.Reader → Seat
  new : seat core.new = ⟨.startRecord, 0, false⟩
  read : ∀ r input room slots,
    let got := core.readRecord r input room slots
    let wanted := Csv.readRecord (seat r) input room slots
    got.result = wanted.result ∧ got.nin = wanted.nin ∧ got.out = wanted.out ∧
      got.ends = wanted.ends ∧ seat got.reader = wanted.reader

/-! ## The pump -/

/-- One record is past the cap, in MiB. -/
inductive Refusal where
  | onePast (mib : Nat)
deriving DecidableEq

structure CsvPump (core : CsvCore) where
  rdr : core.Reader
  input : List Byte
  consumed : Nat
  /-- The output buffer's length, and the bytes written to it. -/
  cap : Nat
  out : List Byte
  ends : List Nat
  /-- The room for one call's ends. -/
  scratch : Nat
  rowReady : Bool
  maxRecord : Nat

namespace CsvPump

variable {core : CsvCore}

/-- A pump with these buffers. -/
def withMaxRecord (core : CsvCore) (cap scratch maxRecord : Nat) : CsvPump core :=
  ⟨core.new, [], 0, cap, [], [], scratch, false, maxRecord⟩

def feed (p : CsvPump core) (chunk : List Byte) : CsvPump core :=
  { p with input := p.input.drop p.consumed ++ chunk, consumed := 0 }

/-- The loop of `next_record`, for so many turns; none when they do not suffice. -/
def turns (eof : Bool) : Nat → CsvPump core →
    Option (Except Refusal (Option CsvRow) × CsvPump core)
  | 0, _ => none
  | n + 1, p =>
      let input := p.input.drop p.consumed
      if input.isEmpty ∧ ¬ eof then some (.ok none, p)
      else
        let r := core.readRecord p.rdr input (p.cap - p.out.length) p.scratch
        let p := { p with
          rdr := r.reader, ends := p.ends ++ r.ends, out := p.out ++ r.out
          consumed := p.consumed + r.nin }
        match r.result with
        | .record => some (.ok (some ⟨p.out, p.ends⟩), { p with rowReady := true })
        | .finished => some (.ok none, p)
        | .inputEmpty => if eof then turns eof n p else some (.ok none, p)
        | .outputFull =>
            if p.cap * 2 > p.maxRecord then some (.error (.onePast (p.maxRecord >>> 20)), p)
            else turns eof n { p with cap := p.cap * 2 }
        | .outputEndsFull => turns eof n { p with scratch := p.scratch * 2 }

def nextRecord (n : Nat) (eof : Bool) (p : CsvPump core) :
    Option (Except Refusal (Option CsvRow) × CsvPump core) :=
  turns eof n (if p.rowReady then { p with out := [], ends := [], rowReady := false } else p)

/-- `while let Some(row) = pump.next_record(eof)?`. -/
def drain (n : Nat) (eof : Bool) : Nat → CsvPump core →
    Option (Except Refusal (List CsvRow) × CsvPump core)
  | 0, _ => none
  | m + 1, p =>
      match nextRecord n eof p with
      | none => none
      | some (.error e, p) => some (.error e, p)
      | some (.ok none, p) => some (.ok [], p)
      | some (.ok (some row), p) =>
          match drain n eof m p with
          | none => none
          | some (.error e, p) => some (.error e, p)
          | some (.ok rows, p) => some (.ok (row :: rows), p)

/-- A stream's records, chunk by chunk, and then the end of the data. -/
def stream (n : Nat) : List (List Byte) → CsvPump core → Option (Except Refusal (List CsvRow))
  | [], p => (drain n true n p).map Prod.fst
  | chunk :: rest, p =>
      match drain n false n (p.feed chunk) with
      | none => none
      | some (.error e, _) => some (.error e)
      | some (.ok rows, p) =>
          match stream n rest p with
          | none => none
          | some (.error e) => some (.error e)
          | some (.ok more) => some (.ok (rows ++ more))

end CsvPump

/-! ## The header, and the cells of a row -/

/-- A field without a mark at its front. -/
def unmarked (f : List Byte) : List Byte := if mark <+: f then f.drop 3 else f

/-- The header's fields, as `row_strings` hands them to the UTF-8 check. -/
def CsvRow.header (r : CsvRow) : List (List Byte) :=
  (List.range r.len).map fun i => if i = 0 then unmarked (r.field i) else r.field i

/-- `row_strings`: every field as text, or the first that is not UTF-8. -/
def rowStrings (utf8 : List Byte → Except String String) (r : CsvRow) :
    Except String (List String) :=
  r.header.mapM fun f => (utf8 f).mapError fun e => "csv header is not UTF-8: " ++ e

/-- A record's cells under `ncols` columns: short rows are padded, long ones refused. -/
def cells (ncols : Nat) (r : CsvRow) : Except Nat (List (List Byte)) :=
  if ncols < r.len then .error r.len
  else .ok ((List.range ncols).map fun i => if i < r.len then r.field i else [])

/-- A stream's rows: the first record is the header, by way of `row_strings`, and its
fields are the columns. -/
def view : List CsvRow → List (List (List Byte))
  | [] => []
  | header :: rows => header.header :: rows.map CsvRow.fields

end Apitap.Csv
