import Apitap.Foundation.Base64
import Apitap.Logbased.RowText
import Apitap.Plan.Watermark
import Apitap.Wire.ParquetColumn

/-!
# Text rows as CSV

The rows of a text COPY, field by field as CSV: an absent value is an empty field or the marker,
an empty one a pair of quotes; a text with a delimiter, a quote or a line end is quoted with its
quotes doubled, and raw bytes are written in base64.
-/

namespace Apitap.CsvOut

open Foundation
open Mysource (Text)
open RowText (nullText)
open Parquet (Delivered)
open Plan (wmMax)

/-! ## Fields -/

/-- The byte an escape stands for. -/
def escapedByte (e : UInt8) : UInt8 :=
  if e = 0x62 then 0x08
  else if e = 0x66 then 0x0C
  else if e = 0x6E then 0x0A
  else if e = 0x72 then 0x0D
  else if e = 0x74 then 0x09
  else if e = 0x76 then 0x0B
  else e

/-- A text COPY field without its escapes. -/
def unescapeInto : Bytes → Bytes
  | [] => []
  | b :: rest =>
      if b ≠ 0x5C then b :: unescapeInto rest
      else
        match rest with
        | [] => [0x5C]
        | e :: rest => escapedByte e :: unescapeInto rest

/-- The alphabet, by index. -/
def alphabet : Bytes :=
  "ABCDEFGHIJKLMNOPQRSTUVWXYZabcdefghijklmnopqrstuvwxyz0123456789+/".toList.map fun c =>
    UInt8.ofNat c.toNat

def symbolAt (i : UInt8) : UInt8 := alphabet.getD i.toNat 0

def base64Into : Bytes → Bytes
  | [] => []
  | [a] => [symbolAt (a >>> 2), symbolAt ((a &&& 0x03) <<< 4 ||| (0 : UInt8) >>> 4), 0x3D, 0x3D]
  | [a, b] =>
      [symbolAt (a >>> 2), symbolAt ((a &&& 0x03) <<< 4 ||| b >>> 4),
        symbolAt ((b &&& 0x0F) <<< 2 ||| (0 : UInt8) >>> 6), 0x3D]
  | a :: b :: c :: rest =>
      symbolAt (a >>> 2) :: symbolAt ((a &&& 0x03) <<< 4 ||| b >>> 4) ::
        symbolAt ((b &&& 0x0F) <<< 2 ||| c >>> 6) :: symbolAt (c &&& 0x3F) :: base64Into rest

def hexVal (b : UInt8) : UInt8 :=
  if 0x30 ≤ b ∧ b ≤ 0x39 then b - 0x30
  else if 0x61 ≤ b ∧ b ≤ 0x66 then b - 0x61 + 10
  else if 0x41 ≤ b ∧ b ≤ 0x46 then b - 0x41 + 10
  else 0

/-- Two digits a byte; an odd one is the first half of its own. -/
def hexBytes : Bytes → Bytes
  | [] => []
  | [h] => [hexVal h <<< 4 ||| 0]
  | h :: l :: rest => (hexVal h <<< 4 ||| hexVal l) :: hexBytes rest

/-- Bytes that force a field into quotes. -/
def csvNeedsQuote (b : UInt8) : Bool := b = 0x2C || b = 0x22 || b = 0x0A || b = 0x0D

/-- In quotes, with every quote doubled. -/
def csvQuoteInto (s : Bytes) : Bytes :=
  [0x22] ++ s.flatMap (fun b => if b = 0x22 then [0x22, 0x22] else [b]) ++ [0x22]

/-- `\x` and what follows. -/
def stripHex (val : Bytes) : Bytes := if [0x5C, 0x78] <+: val then val.drop 2 else val

/-- A full offset behind an instant, where the session renders its hours alone. -/
def fullOffset (val : Bytes) : Bytes :=
  let sign := val.getD (val.length - 3) 0
  if 3 < val.length ∧ (sign = 0x2B ∨ sign = 0x2D) then val ++ [0x3A, 0x30, 0x30] else val

/-- A present value as CSV. -/
def csvValue (d : Delivered) (val : Bytes) : Bytes :=
  match d with
  | .int _ _ | .decimal _ _ | .float32 | .float64 | .date | .dateTime false | .uuid => val
  | .bool => if val = [0x74] then [0x74, 0x72, 0x75, 0x65] else [0x66, 0x61, 0x6C, 0x73, 0x65]
  | .dateTime true => fullOffset val
  | .bytes =>
      let hex := stripHex val
      if hex = [] then [0x22, 0x22] else base64Into (hexBytes hex)
  | .json | .text => if val = [] ∨ val.any csvNeedsQuote then csvQuoteInto val else val

/-- One field, still escaped. -/
def appendCsvValue (raw : Bytes) (d : Delivered) : Bytes :=
  csvValue d (if 0x5C ∈ raw then unescapeInto raw else raw)

/-! ## Rows -/

/-- What a transcoding writes and keeps. -/
structure Written where
  out : Bytes
  wm : Option Text
  rows : Nat

section Transcode

variable (lossy : Bytes → Text) (delivered : List Delivered) (nullMarker : Bool)
  (cursor : Option (Nat × Bool))

def tooMany : Error :=
  .transfer ("tsv row has more fields than the " ++ toString delivered.length ++ " planned columns")

def tooFew (col : Nat) : Error :=
  .transfer ("tsv row has " ++ toString col ++ " fields, expected " ++ toString delivered.length)

/-- `\\N`: the spelling of a value that is the marker. -/
def markerText : Bytes := [0x5C, 0x5C, 0x4E]

/-- The watermark behind a present field. -/
def watermark (col : Nat) (field : Bytes) (wm : Option Text) : Option Text :=
  match cursor with
  | some (idx, numeric) => if col = idx then wmMax wm (some (lossy field)) numeric else wm
  | none => wm

/-- The fields of a row from a column on. -/
def rowFrom (col : Nat) (w : Written) : List Bytes → Except Error Written
  | [] => if col ≠ delivered.length then .error (tooFew delivered col) else .ok w
  | field :: fields =>
      match delivered[col]? with
      | none => .error (tooMany delivered)
      | some d =>
          let out := w.out ++ if 0 < col then [0x2C] else []
          if field = nullText then
            rowFrom (col + 1) { w with out := out ++ if nullMarker then nullText else [] } fields
          else if nullMarker ∧ field = markerText then
            rowFrom (col + 1) { w with out := out ++ [0x22, 0x5C, 0x4E, 0x22] } fields
          else
            rowFrom (col + 1) { w with
              out := out ++ appendCsvValue field d
              wm := watermark lossy cursor col field w.wm } fields

/-- Without the byte a line ends in. -/
def stripSuffix (b : UInt8) (line : Bytes) : Bytes :=
  if line.getLast? = some b then line.dropLast else line

/-- The lines of a buffer; a line end closes one and opens none. -/
def lines (input : Bytes) : List Bytes :=
  let pieces := input.splitOn 0x0A
  if pieces.getLast? = some [] then pieces.dropLast else pieces

def tsvToCsv (w : Written) (input : Bytes) : Except Error Written :=
  (lines input).foldlM (fun w line =>
    match rowFrom lossy delivered nullMarker cursor 0 w ((stripSuffix 0x0D line).splitOn 0x09) with
    | .error e => .error e
    | .ok w => .ok { w with out := w.out ++ [0x0A], rows := w.rows + 1 }) w

/-- A loader's buffers, one after another. -/
def sendAll (bufs : List Bytes) : Except Error Written :=
  bufs.foldlM (tsvToCsv lossy delivered nullMarker cursor) ⟨[], none, 0⟩

end Transcode

end Apitap.CsvOut
