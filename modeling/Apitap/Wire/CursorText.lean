import Apitap.Foundation.Calendar
import Apitap.Plan.Watermark
import Apitap.Wire.ParquetColumn

/-!
# A cursor value as text

What the Parquet lane renders for its watermark: integers and decimals in digits, dates and
timestamps as the calendar shows them. The date type is a parameter: the days it can hold, and
how it writes one. A year has four digits at least, and a sign outside of 0 to 9999.
-/

namespace Apitap.Parquet

open Foundation
open Calendar (Date civil)
open Mysource (Text)
open Copy (fromBeInt pgEpochDays pgEpochMicros numericToScaledI128)

def digitText (ds : List Nat) : Text := ds.map fun d => Char.ofNat (48 + d)

/-- A number in `w` digits at least. -/
def padded (w n : Nat) : Text :=
  let ds := Decimal.itoa n
  digitText (List.replicate (w - ds.length) 0 ++ ds)

def intText (z : Int) : Text := (if z < 0 then ['-'] else []) ++ padded 1 z.natAbs

/-- `%Y`. -/
def yearText (y : Int) : Text :=
  if 0 ≤ y ∧ y ≤ 9999 then padded 4 y.toNat
  else (if y < 0 then '-' else '+') :: padded 4 y.natAbs

/-- `%Y-%m-%d`. -/
def dateText (d : Date) : Text :=
  yearText d.year ++ '-' :: (padded 2 d.month ++ '-' :: padded 2 d.day)

/-- `%H:%M:%S`. -/
def clockText (s : Nat) : Text :=
  padded 2 (s / 3600) ++ ':' :: (padded 2 (s / 60 % 60) ++ ':' :: padded 2 (s % 60))

/-- `%Y-%m-%d %H:%M:%S`, of a number of seconds. -/
def stampText (secs : Int) : Text :=
  dateText (civil (secs / 86400)) ++ ' ' :: clockText (secs % 86400).toNat

/-- A date type: the days it holds, counted from the epoch, and what it writes of a day and of
a second in one of them. -/
structure Chrono where
  holds : Int → Bool
  date : Int → Text
  stamp : Int → Text
  date_eq : ∀ day, holds day = true → date day = dateText (civil day)
  stamp_eq : ∀ secs, holds (secs / 86400) = true → stamp secs = stampText secs

def Chrono.standard (holds : Int → Bool) : Chrono where
  holds := holds
  date day := dateText (civil day)
  stamp := stampText
  date_eq _ _ := rfl
  stamp_eq _ _ := rfl

def fraction (micros : Nat) : Text :=
  if micros = 0 then [] else '.' :: (padded 6 micros).rdropWhile (· = '0')

/-- Microseconds since the Unix epoch. -/
def renderTsMicros (chrono : Chrono) (unixUs : Int) (utc : Bool) : Except (Stop Error) Text :=
  let secs := unixUs / 1000000
  let micros := (unixUs % 1000000).toNat
  if chrono.holds (secs / 86400) then
    .ok (chrono.stamp secs ++ fraction micros ++ if utc then ['+', '0', '0'] else [])
  else .error (.err (bad "cursor ts range"))

/-- Days since the Unix epoch. -/
def renderDateDays (chrono : Chrono) (unixDays : Int) : Except (Stop Error) Text :=
  (Stop.orPanic (checked 64 (unixDays * 86400))).bind fun secs =>
    if chrono.holds (secs / 86400) then .ok (chrono.date (secs / 86400))
    else .error (.err (bad "cursor date range"))

def Delivered.debug : Delivered → String
  | .int width unsigned => s!"Int \x7b bytes: {width}, unsigned: {unsigned} \x7d"
  | .float32 => "Float32"
  | .float64 => "Float64"
  | .decimal p s => s!"Decimal \x7b p: {p}, s: {s} \x7d"
  | .bool => "Bool"
  | .date => "Date"
  | .dateTime utc => s!"DateTime \x7b utc: {utc} \x7d"
  | .uuid => "Uuid"
  | .json => "Json"
  | .text => "Text"
  | .bytes => "Bytes"

/-- A scaled number with its point. -/
def decimalText (scale : Nat) (scaled : Int) : Text :=
  if scale = 0 then intText scaled
  else
    let abs := padded (scale + 1) scaled.natAbs
    (if scaled < 0 then ['-'] else []) ++ abs.take (abs.length - scale) ++
      '.' :: abs.drop (abs.length - scale)

def renderCursor (chrono : Chrono) (d : Delivered) (f : Bytes) : Except (Stop Error) Text :=
  match d with
  | .int .. =>
      if f.length = 2 ∨ f.length = 4 ∨ f.length = 8 then .ok (intText (fromBeInt f))
      else .error (.err (bad "cursor int"))
  | .dateTime utc =>
      (sized 8 "cursor ts" f).bind fun f =>
        (Stop.orPanic (checked 64 (fromBeInt f + pgEpochMicros))).bind fun us =>
          renderTsMicros chrono us utc
  | .date =>
      (sized 4 "cursor date" f).bind fun f => renderDateDays chrono (fromBeInt f + pgEpochDays)
  | .decimal _ s => (numericToScaledI128 f s).map (decimalText s)
  | other =>
      .error (.err (.invalidInput
        ("cursor column type " ++ other.debug ++ " isn't supported on the binary lane")))

end Apitap.Parquet
