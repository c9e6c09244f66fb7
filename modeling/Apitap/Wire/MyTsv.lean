import Apitap.Foundation.Binary64
import Apitap.Foundation.Decimal
import Apitap.Wire.Days
import Apitap.Wire.RowBinary

/-!
# Fields from a binary COPY to MySQL's text

One column's conversion for `LOAD DATA`: digits for numbers, `1` and `0` for booleans, dates
and times of the years MySQL has, hexadecimal bytes, and text with the loader's escapes. The
shortest digits of a float are a parameter.
-/

namespace Apitap.MyTsv

open Foundation Decimal
open Copy (word i16 fromBe fromBeInt pgEpochDays pgEpochMicros)

inductive MyType where
  | int
  | float32
  | float64
  | bool
  | date
  | ts
  | numeric
  | numericDouble
  | text
  | jsonB
  | uuid
  | bytea
deriving DecidableEq, Repr

def bad (name what : String) : Error :=
  .transfer ("pg binary COPY: malformed " ++ what ++ " field in column " ++ name)

def nonfinite (name : String) : Error :=
  .transfer ("column " ++ name ++ " holds NaN or Infinity, which MySQL cannot store — " ++
    "filter or cast it at the source (e.g. NULLIF(" ++ name ++ ", 'NaN'))")

def outsideDouble (name : String) : Error :=
  .transfer ("column " ++ name ++ ": unconstrained NUMERIC value is outside DOUBLE " ++
    "range (the destination column) — declare a precision or cast " ++
    "it at the source (e.g. ::numeric(38,10))")

def outsideYears (name : String) (y : Int) : Error :=
  .transfer ("column " ++ name ++ ": date/timestamp year " ++ toString y ++
    " is outside MySQL's 1000..9999 range (Postgres ±infinity lands here too) — cast or " ++
    "filter it at the source")

/-- Two digits of a number below a hundred. -/
def push2 (v : Nat) : List Nat := [v / 10, v % 10]

/-- The last four digits. -/
def push4 (v : Nat) : List Nat := Radix.digits 10 4 v

def civilFromDays (z : Int) : Option Calendar.Date := Days.civilWith 8 z

def checkYear (name : String) (y : Int) : Except (Stop Error) Unit :=
  if 1000 ≤ y ∧ y ≤ 9999 then .ok () else .error (.err (outsideYears name y))

def pushDate (d : Calendar.Date) : Bytes :=
  ascii (push4 d.year.toNat) ++ 45 :: ascii (push2 d.month) ++ 45 :: ascii (push2 d.day)

/-- The time of a day, with six digits of its second. -/
def pushTime (inDay : Nat) : Bytes :=
  let secs := inDay / 1000000
  ascii (push2 (secs / 3600)) ++ 58 :: ascii (push2 (secs / 60 % 60)) ++
    58 :: ascii (push2 (secs % 60)) ++ 46 :: ascii (Radix.digits 10 6 (inDay % 1000000))

def renderDate (name : String) (f : Bytes) : Except (Stop Error) Bytes :=
  if f.length ≠ 4 then .error (.err (bad name "date"))
  else
    (Stop.orPanic (checked 64 (fromBeInt f + pgEpochDays))).bind fun days =>
      (Stop.orPanic (civilFromDays days)).bind fun d =>
        (checkYear name d.year).map fun _ => pushDate d

def renderTs (name : String) (f : Bytes) : Except (Stop Error) Bytes :=
  if f.length ≠ 8 then .error (.err (bad name "timestamp"))
  else
    (Stop.orErr (bad name "timestamp range") (checked 64 (fromBeInt f + pgEpochMicros))).bind
      fun us =>
        (Stop.orPanic (civilFromDays (us / 86400000000))).bind fun d =>
          (checkYear name d.year).map fun _ =>
            pushDate d ++ 32 :: pushTime (us % 86400000000).toNat

/-- The fraction digits from `written` on: zero groups, the stored ones, zero groups. -/
def fraction (f : Bytes) (ndigits dscale : Nat) : Nat → Nat → Nat → Nat → List Nat
  | 0, _, _, _ => []
  | fuel + 1, written, gi, zeroGroups =>
      if written < dscale then
        let v := if 0 < zeroGroups then 0 else if gi < ndigits then word f (8 + gi * 2) else 0
        let next := if 0 < zeroGroups then gi else if gi < ndigits then gi + 1 else gi
        let take := min (dscale - written) 4
        (push4 v).take take ++ fraction f ndigits dscale fuel (written + take) next (zeroGroups - 1)
      else []

/-- The integer digits: the groups down to weight 0, the first one unpadded. -/
def integer (f : Bytes) (ndigits : Nat) (weight : Int) : List Nat :=
  if weight < 0 ∨ ndigits = 0 then [0]
  else
    (List.range (weight.toNat + 1)).flatMap fun gi =>
      let v := if gi < ndigits then word f (8 + gi * 2) else 0
      if gi = 0 then itoa v else push4 v

def renderNumeric (name : String) (f : Bytes) : Except (Stop Error) Bytes :=
  if f.length < 8 then .error (.err (bad name "numeric header"))
  else
    let ndigits := i16 (word f 0)
    if ndigits < 0 then .error (.err (bad name "numeric ndigits"))
    else
      let weight := i16 (word f 2)
      let sign := word f 4
      let dscale := word f 6
      if f.length < 8 + ndigits.toNat * 2 then .error (.err (bad name "numeric digits"))
      else if sign ≠ 0x0000 ∧ sign ≠ 0x4000 then .error (.err (nonfinite name))
      else
        -- each turn of the fraction loop writes a digit at least
        let digits := fraction f ndigits.toNat dscale dscale 0 (weight + 1).toNat
          (-(weight + 1)).toNat
        .ok ((if sign = 0x4000 then [45] else []) ++ ascii (integer f ndigits.toNat weight) ++
          if 0 < dscale then 46 :: ascii digits else [])

/-- The loader's escapes. -/
def tsvEscape (field : Bytes) : Bytes :=
  field.flatMap fun b =>
    if b = 9 then [92, 116]
    else if b = 10 then [92, 110]
    else if b = 13 then [92, 114]
    else if b = 0 then [92, 48]
    else if b = 0x1A then [92, 90]
    else if b = 92 then [92, 92]
    else [b]

/-- A byte in two hexadecimal digits, with letters from `a` on. -/
def hex (a : UInt8) (b : UInt8) : Bytes :=
  [b / 16, b % 16].map fun d => if d < 10 then 48 + d else a + (d - 10)

def renderField (floats : Floats) (ty : MyType) (name : String) (f : Bytes) :
    Except (Stop Error) Bytes :=
  match ty with
  | .int =>
      if f.length = 2 ∨ f.length = 4 ∨ f.length = 8 then .ok (itoaInt (fromBeInt f))
      else .error (.err (bad name ("int width " ++ toString f.length)))
  | .float32 =>
      if f.length ≠ 4 then .error (.err (bad name "float4"))
      else if fromBe f / 2 ^ 23 % 2 ^ 8 = 255 then .error (.err (nonfinite name))
      else .ok (floats.single (fromBe f))
  | .float64 =>
      if f.length ≠ 8 then .error (.err (bad name "float8"))
      else if fromBe f / 2 ^ 52 % 2 ^ 11 = 2047 then .error (.err (nonfinite name))
      else .ok (floats.double (fromBe f))
  | .bool => .ok [if f.head? = some 1 then 49 else 48]
  | .date => renderDate name f
  | .ts => renderTs name f
  | .numeric => renderNumeric name f
  | .numericDouble =>
      (renderNumeric name f).bind fun txt =>
        let approx := toBinary64 (read txt)
        let hasDigits := txt.any fun b => 49 ≤ b ∧ b ≤ 57
        if approx = ⊥ ∨ approx = ⊤ ∨ (approx = (0 : ℚ) ∧ hasDigits) then
          .error (.err (outsideDouble name))
        else .ok txt
  | .text => .ok (tsvEscape f)
  | .jsonB =>
      match f with
      | 1 :: f => .ok (tsvEscape f)
      | _ => .error (.err (bad name "jsonb version"))
  | .uuid =>
      if f.length ≠ 16 then .error (.err (bad name "uuid"))
      else
        .ok (f.zipIdx.flatMap fun (b, i) =>
          (if i = 4 ∨ i = 6 ∨ i = 8 ∨ i = 10 then [45] else []) ++ hex 97 b)
  | .bytea => .ok (f.flatMap (hex 65))

end Apitap.MyTsv
