import Apitap.Wire.MyTsv
import Apitap.Wire.SpanStrip
import Apitap.Wire.Transcoder

/-!
# RowBinary and MySQL's text out of one stream

The two transcoders as dialects of one machine: a RowBinary field has a byte for NULL where
its column is nullable, a text field stands between tabs and a row ends in a newline. Only
the second one bounds the header extension.
-/

namespace Apitap.Copy

open Foundation

def bufferable (maxField : Nat) : String :=
  toString (maxField / 2 ^ 20) ++ " MiB this process can buffer " ++
    "(half its memory limit; APITAP_MEM_BUDGET sets it)"

/-- `Transcoder`: a column is its conversion and whether it is nullable. -/
def rowBinary (f64 : Int → Int → Bytes) (maxField : Nat) : Dialect (RbType × Bool) where
  between := []
  close := []
  null c :=
    if c.2 then .ok [1]
    else .error (.err (.transfer "NULL in a column ClickHouse declared non-nullable"))
  value c f := (transcodeField f64 c.1 f).map ((if c.2 then [0] else []) ++ ·)
  negative _ len := .transfer ("pg binary COPY: negative field length " ++ toString len)
  large _ len :=
    .transfer ("pg binary COPY: a field of " ++ toString len ++ " bytes is above the " ++
      bufferable maxField)
  maxField
  ext _ := none

/-- `PgToMyTsv`: a column is its conversion and its name. -/
def myTsv (floats : Decimal.Floats) (maxField : Nat) : Dialect (MyTsv.MyType × String) where
  between := [9]
  close := [10]
  null _ := .ok [92, 78]
  value c f := MyTsv.renderField floats c.1 c.2 f
  negative c len :=
    .transfer ("pg binary COPY: negative field length " ++ toString len ++ " in column " ++ c.2)
  large c len :=
    .transfer ("pg binary COPY: field " ++ c.2 ++ " is " ++ toString len ++ " bytes, above the " ++
      bufferable maxField)
  maxField
  ext e :=
    if 2 ^ 20 < e then
      some (.transfer ("pg binary COPY: header extension of " ++ toString e ++ " bytes"))
    else none

/-- Both transcoders, for any columns, bound of a field and text of a float: no cut of the input
matters, and a whole stream gives its encoded rows up to the trailer, or a refusal. -/
theorem transcoders_ignore_cuts :
    (∀ f64 maxField cols, Transcodes (rowBinary f64 maxField) cols) ∧
      ∀ floats maxField cols, Transcodes (myTsv floats maxField) cols :=
  ⟨fun f64 maxField cols => transcodes (rowBinary f64 maxField) cols,
    fun floats maxField cols => transcodes (myTsv floats maxField) cols⟩

namespace LongExtension

def header : Header where
  flags := [0, 0, 0, 0]
  ext := List.replicate (2 ^ 20 + 1) 0
  flags_len := SpanStrip.Early.plain.flags_len
  ext_lt := by rw [List.length_replicate]; decide

def transcoder : Dialect (MyTsv.MyType × String) := myTsv ⟨fun _ => [], fun _ => []⟩ (2 ^ 30)

/-- A stream of no rows with a header extension past 1 MiB: the text transcoder refuses it. -/
theorem long_extension_is_refused :
    Carry.shown (Carry.new.push (format transcoder []) (stream header [])) =
      .error (.err (.transfer "pg binary COPY: header extension of 1048577 bytes")) := by
  have taken : transcoder.ext header.ext.length =
      some (.transfer "pg binary COPY: header extension of 1048577 bytes") := by
    rw [header, List.length_replicate, transcoder, myTsv]
    rfl
  rw [Carry.shown_push, absorb_stream, taken]
  rfl

end LongExtension

end Apitap.Copy
