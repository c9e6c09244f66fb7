import Apitap.Foundation.Decimal
import Apitap.Wire.CopyStream
import Apitap.Wire.Days
import Apitap.Wire.Numeric

/-!
# Binary values of a replication stream as text

What a value's output function prints: a numeric by its base-10000 groups, a day as a civil
date with a mark for years before the first, a timestamp as a day and the time in it with no
zero at the end of its fraction. A year prints in four digits or in all it has.
-/

namespace Apitap.BinDec

open Foundation Decimal
open Copy (word i16)

def pgEpochUnixDays : Int := 10957

def usecsPerDay : Int := 86400000000

def short (oid : Nat) : Error :=
  .transfer ("pgoutput binary: truncated value for type OID " ++ toString oid)

/-- A word in hexadecimal, in four digits. -/
def hexWord (n : Nat) : String :=
  "0x" ++ String.ofList ((Radix.digits 16 4 n).map Nat.digitChar)

def signWord (sign : Nat) : Error :=
  .transfer ("pgoutput binary: numeric sign word " ++ hexWord sign)

/-- `NaN`. -/
def nan : Bytes := [78, 97, 78]

/-- `infinity`, in the case of its first letter. -/
def infinity (i : UInt8) : Bytes := [i, 110, 102, 105, 110, 105, 116, 121]

/-! ## Numerics -/

/-- A digit group, zero outside the stored ones. -/
def dig (raw : Bytes) (ndigits : Nat) (i : Int) : Nat :=
  if 0 ≤ i ∧ i.toNat < ndigits then word raw (8 + 2 * i.toNat) else 0

/-- The four digits of a group. -/
def four (g : Nat) : List Nat := [g / 1000, g / 100 % 10, g / 10 % 10, g % 10]

def digitOf (g : Nat) : Nat → Nat
  | 0 => g / 1000
  | 1 => g / 100 % 10
  | 2 => g / 10 % 10
  | _ => g % 10

def numeric (raw : Bytes) : Except (Stop Error) Bytes :=
  if raw.length < 8 then .error (.err (short 1700))
  else
    let ndigits := word raw 0
    let weight := i16 (word raw 2)
    let sign := word raw 4
    let dscale := word raw 6 % 2 ^ 14
    let dig := dig raw ndigits
    let finite : Bytes :=
      ascii (if weight < 0 then [0]
        else itoa (dig 0) ++ (List.range weight.toNat).flatMap fun d : Nat => four (dig (d + 1))) ++
      if 0 < dscale then
        46 :: ascii ((List.range dscale).map fun i =>
          digitOf (dig (weight + 1 + (i / 4 : Nat))) (i % 4))
      else []
    if raw.length < 8 + 2 * ndigits then .error (.err (short 1700))
    else if sign = 0x0000 then .ok finite
    else if sign = 0x4000 then .ok (45 :: finite)
    else if sign = 0xC000 then .ok nan
    else if sign = 0xD000 then .ok (infinity 73)
    else if sign = 0xF000 then .ok (45 :: infinity 73)
    else .error (.err (signWord sign))

/-! ## Dates and times -/

def civilFromDays (z : Int) : Option Calendar.Date := Days.civilWith 32 z

def push2 (v : Nat) : List Nat := [v / 10 % 10, v % 10]

/-- `YYYY-MM-DD`, and whether the year is before the first. -/
def pushDate (days : Int) : Option (Bytes × Bool) :=
  (checked 64 (days + pgEpochUnixDays)).bind fun z =>
    (civilFromDays z).bind fun d =>
      (if d.year ≤ 0 then checked 64 (1 - d.year) else some d.year).map fun disp =>
        let bc : Bool := d.year ≤ 0
        let year :=
          if disp < 1000 then
            [disp.toNat / 1000 % 10, disp.toNat / 100 % 10, disp.toNat / 10 % 10, disp.toNat % 10]
          else itoa disp.toNat
        (ascii year ++ 45 :: ascii (push2 d.month) ++ 45 :: ascii (push2 d.day), bc)

/-- A space and `BC`. -/
def beforeChrist : Bytes := [32, 66, 67]

def date (days : Int) : Option Bytes :=
  if days = 2 ^ 31 - 1 then some (infinity 105)
  else if days = -2 ^ 31 then some (45 :: infinity 105)
  else (pushDate days).map fun (text, bc) => text ++ if bc then beforeChrist else []

/-- `HH:MM:SS`, and a fraction without its last zeros. -/
def time (us : Int) : Bytes :=
  let h := (us.tdiv 3600000000 % 2 ^ 32).toNat
  let m := ((us.tdiv 60000000).tmod 60 % 2 ^ 32).toNat
  let s := ((us.tdiv 1000000).tmod 60 % 2 ^ 32).toNat
  let f := us.tmod 1000000
  let digits := Radix.digits 10 6 f.toNat
  let keep := 6 - (digits.reverse.takeWhile (· == 0)).length
  ascii (push2 h) ++ 58 :: ascii (push2 m) ++ 58 :: ascii (push2 s) ++
    if 0 < f then 46 :: ascii (digits.take keep) else []

def timestamp (t : Int) (tz : Bool) : Option Bytes :=
  if t = 2 ^ 63 - 1 then some (infinity 105)
  else if t = -2 ^ 63 then some (45 :: infinity 105)
  else
    let days := t / usecsPerDay
    let us := t % usecsPerDay
    (pushDate days).map fun (text, bc) =>
      text ++ 32 :: time us ++ (if tz then [43, 48, 48] else []) ++ if bc then beforeChrist else []

end Apitap.BinDec
