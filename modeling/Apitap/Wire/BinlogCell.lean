import Apitap.Foundation.Cursor
import Apitap.Foundation.Decimal
import Apitap.Foundation.Separated
import Apitap.Wire.CopyStream
import Apitap.Wire.Days

/-!
# One cell of a binlog row

A packed value by its column's type and metadata, as text: integers by width and sign,
temporal values with their fraction digits, decimals by base-10⁹ groups, strings by a length
prefix, ENUM and SET by the labels of the catalog. What a digit writer cannot hold is a panic:
a group of a decimal past its digits, a fraction of a second past the second.
-/

namespace Apitap.Rows

open Foundation Decimal
open Copy (be fromBe)

def bad (what : String) : Error := .transfer ("mysql binlog: " ++ what)

abbrev Read (α : Type) := Cursor (Stop Error) α

def take (n : Nat) : Read Bytes := Cursor.take (.err (bad "truncated slice")) n

def u8 : Read Nat := fun
  | [] => .error (.err (bad "truncated u8"))
  | b :: rest => .ok (b.toNat, rest)

/-- The number little-endian bytes denote. -/
def fromLe (bs : Bytes) : Nat := fromBe bs.reverse

/-- An unsigned little-endian number. -/
def uintLe (n : Nat) : Read Nat := (take n).andThen fun bs => .ret (fromLe bs)

/-- An unsigned big-endian number. -/
def uintBe (n : Nat) : Read Nat := (take n).andThen fun bs => .ret (fromBe bs)

/-- A length-encoded integer. -/
def lenenc : Read Nat :=
  u8.andThen fun first =>
    if first = 0xFC then uintLe 2
    else if first = 0xFD then uintLe 3
    else if first = 0xFE then uintLe 8
    else .ret first

/-- The column types by their codes. -/
inductive Mt where
  | tiny | short | int24 | long | longlong
  | float | double
  | year | date | timestamp | timestamp2 | datetime2 | time2
  | newdecimal
  | varchar | varString
  | bit
  | string | enum | set
  | blob | tinyBlob | mediumBlob | longBlob | geometry
  | json
  | null
  | other (code : Nat)
deriving DecidableEq, Repr

def Mt.ofByte : Nat → Mt
  | 0x01 => .tiny
  | 0x02 => .short
  | 0x03 => .long
  | 0x04 => .float
  | 0x05 => .double
  | 0x06 => .null
  | 0x07 => .timestamp
  | 0x08 => .longlong
  | 0x09 => .int24
  | 0x0a => .date
  | 0x0d => .year
  | 0x0f => .varchar
  | 0x10 => .bit
  | 0x11 => .timestamp2
  | 0x12 => .datetime2
  | 0x13 => .time2
  | 0xf5 => .json
  | 0xf6 => .newdecimal
  | 0xf7 => .enum
  | 0xf8 => .set
  | 0xf9 => .tinyBlob
  | 0xfa => .mediumBlob
  | 0xfb => .longBlob
  | 0xfc => .blob
  | 0xfd => .varString
  | 0xfe => .string
  | 0xff => .geometry
  | code => .other code

/-- One column as a table map describes it, with what the catalog adds. -/
structure ColDef where
  kind : Mt
  metadata : Nat
  nullable : Bool
  unsigned : Bool
  binary : Bool
  labels : Option (List Bytes)
deriving DecidableEq, Repr

/-! ## Digits -/

/-- Two digits of a number below a hundred. -/
def push2 (v : Nat) : List Nat := [v % 100 / 10, v % 100 % 10]

def pushYear (y : Nat) : List Nat := if y < 10000 then push2 (y / 100) ++
    push2 (y % 100) else itoa y

/-- Digits of a fixed width; a leading part past a byte is a panic. -/
def pushPadded : Nat → Nat → Except (Stop Error) Bytes
  | 0, _ => .ok []
  | width + 1, v =>
      let d := v / 10 ^ width % 256
      if 208 ≤ d then .error .panic
      else (pushPadded width (v % 10 ^ width)).map (UInt8.ofNat (48 + d) :: ·)

/-- The digits of `push_frac`, each without a check. -/
def fracDigits : Nat → Nat → Bytes
  | 0, _ => []
  | n + 1, scaled => UInt8.ofNat (48 + scaled / 10 ^ n % 256) :: fracDigits n (scaled % 10 ^ n)

def pushFrac (frac fsp : Nat) : Bytes :=
  if 0 < fsp then 46 :: fracDigits (min fsp 6) (frac / 10 ^ (6 - min fsp 6)) else []

/-- The fractional tail, in microseconds. -/
def readFrac (fsp : Nat) : Read Nat :=
  if fsp = 0 then .ret 0
  else if fsp ≤ 2 then u8.andThen fun v => .ret (v * 10000)
  else if fsp ≤ 4 then (uintBe 2).andThen fun v => .ret (v * 100)
  else uintBe 3

/-- A date's text. -/
def dateText (y m d : Nat) : Bytes := ascii (pushYear y) ++ 45 :: ascii (push2 m) ++
    45 :: ascii (push2 d)

def clockText (h m s : Nat) : Bytes := ascii (push2 h) ++ 58 :: ascii (push2 m) ++
    58 :: ascii (push2 s)

/-- Seconds since 1970 and microseconds; the fraction's first two digits must be two. -/
def fmtEpoch (secs : Int) (micros : Nat) : Except (Stop Error) Bytes :=
  (Stop.orPanic (Days.civilBinlog (secs / 86400))).bind fun d =>
    let rem := (secs % 86400).toNat
    let front := dateText d.year.toNat d.month d.day ++
      32 :: clockText (rem / 3600) (rem % 3600 / 60) (rem % 60)
    if 0 < micros then
      if 100 ≤ micros / 10000 then .error .panic
      else
        .ok (front ++ 46 :: ascii (push2 (micros / 10000)) ++ ascii (push2 (micros / 100 % 100)) ++
          ascii (push2 (micros % 100)) ++ [43, 48, 48])
    else .ok (front ++ [43, 48, 48])

/-! ## Temporal values -/

/-- `0000-00-00 00:00:00+00`. -/
def zeroTimestamp : Bytes := dateText 0 0 0 ++ 32 :: clockText 0 0 0 ++ [43, 48, 48]

def timestamp2 (fsp : Nat) : Read Bytes :=
  (uintBe 4).andThen fun secs =>
    (readFrac fsp).andThen fun frac =>
      if secs = 0 ∧ frac = 0 then .ret zeroTimestamp else .lift (fmtEpoch secs frac)

def datetime2 (fsp : Nat) : Read Bytes :=
  (uintBe 5).andThen fun packed =>
    let v := packed % 2 ^ 39
    let ym := v / 2 ^ 22 % 2 ^ 17
    (readFrac fsp).andThen fun frac =>
      .ret (dateText (ym / 13) (ym % 13) (v / 2 ^ 17 % 2 ^ 5) ++
        32 :: clockText (v / 2 ^ 12 % 2 ^ 5) (v / 2 ^ 6 % 2 ^ 6) (v % 2 ^ 6) ++ pushFrac frac fsp)

/-- A biased integer part and its fraction as one number. -/
def joinTime (int fr modulus scale : Int) : Int :=
  let ip := int - 0x800000
  if ip < 0 ∧ fr ≠ 0 then (ip + 1) * 2 ^ 24 + (fr - modulus) * scale else ip * 2 ^ 24 + fr * scale

def packedTime (fsp : Nat) : Read Int :=
  (uintBe 3).andThen fun int =>
    if fsp = 0 then .ret ((int - 0x800000 : Int) * 2 ^ 24)
    else if fsp ≤ 2 then u8.andThen fun fr => .ret (joinTime int fr 0x100 10000)
    else if fsp ≤ 4 then (uintBe 2).andThen fun fr => .ret (joinTime int fr 0x10000 100)
    else (uintBe 3).andThen fun fr => .ret (int * 2 ^ 24 + fr - 0x800000000000)

def time2 (fsp : Nat) : Read Bytes :=
  (packedTime fsp).andThen fun packed =>
    let a := packed.natAbs
    let v := a / 2 ^ 24 % 2 ^ 32
    let frac := a % 2 ^ 24
    if 999999 < frac then .fail (.err (bad "TIME2 fraction out of range"))
    else
      let h := v / 2 ^ 12 % 2 ^ 10
      .ret ((if packed < 0 ∧ a ≠ 0 then [45] else []) ++
        (ascii (if h < 100 then push2 h else itoa h) ++
          58 :: ascii (push2 (v / 2 ^ 6 % 2 ^ 6)) ++ 58 :: ascii (push2 (v % 2 ^ 6))) ++
        pushFrac frac fsp)

/-! ## Decimals -/

/-- Bytes of a group that is not full, by its digits. -/
def bytesFor (digits : Nat) : Nat := [0, 1, 1, 2, 2, 3, 3, 4, 4, 4].getD digits 0

/-- A group before any digit is out: nothing for zero. -/
def firstGroup (v : Nat) : Bytes := if v ≠ 0 then ascii (itoa v) else []

def fullGroups : Nat → Bytes → Read Bytes
  | 0, out => .ret out
  | n + 1, out =>
      (uintBe 4).andThen fun v =>
        if out ≠ [] then (Cursor.lift (pushPadded 9 v)).andThen fun ds => fullGroups n (out ++ ds)
        else fullGroups n (firstGroup v)

def paddedGroups : Nat → Read Bytes
  | 0 => .ret []
  | n + 1 =>
      (uintBe 4).andThen fun v =>
        (Cursor.lift (pushPadded 9 v)).andThen fun ds =>
          (paddedGroups n).andThen fun more => .ret (ds ++ more)

/-- The digits of a decimal whose sign is taken out of its bytes. -/
def decimalDigits (precision scale : Nat) : Read Bytes :=
  (if 0 < (precision - scale) % 9 then
    (uintBe (bytesFor ((precision - scale) % 9))).andThen fun v => .ret (firstGroup v)
    else .ret []).andThen fun first =>
      (fullGroups ((precision - scale) / 9) first).andThen fun int =>
        let int := if int = [] then [48] else int
        if 0 < scale then
          (paddedGroups (scale / 9)).andThen fun frac =>
            (if 0 < scale % 9 then
              (uintBe (bytesFor (scale % 9))).andThen fun v => .lift (pushPadded (scale % 9) v)
              else .ret []).andThen fun last => .ret (int ++ 46 :: frac ++ last)
        else .ret int

def decimalSize (precision scale : Nat) : Nat :=
  ((precision - scale) / 9 + scale / 9) * 4 + bytesFor ((precision - scale) % 9) +
    bytesFor (scale % 9)

/-- The bytes without the sign: the top bit turned, and all complemented for a negative one. -/
def unsign (raw : Bytes) : Except (Stop Error) (Bool × Bytes) :=
  match raw with
  | [] => .error .panic
  | first :: rest =>
      let negative : Bool := first.toNat < 0x80
      let b := (first ^^^ 0x80) :: rest
      .ok (negative, if negative then b.map (~~~ ·) else b)

def decodeDecimal (precision scale : Nat) : Read Bytes :=
  if precision = 0 ∨ 65 < precision ∨ 30 < scale ∨ precision < scale then
    .fail (.err (bad ("NEWDECIMAL(" ++ toString precision ++ "," ++ toString scale ++
      ") metadata")))
  else
    (take (decimalSize precision scale)).andThen fun raw =>
      (Cursor.lift (unsign raw)).andThen fun (negative, b) =>
        .lift ((decimalDigits precision scale b).map fun (digits, _) =>
          (if negative then [45] else []) ++ digits)

/-! ## Labels -/

section labels

variable {α : Type}

/-- An ENUM cell is a 1-based index into the members; 0 is the server's invalid value. A label
is a text over some alphabet: the bytes a cell is, or the characters they spell. -/
def renderEnum (labels : Option (List (List α))) (v : Nat) : Except (Stop Error) (List α) :=
  let refused : Error := bad ("ENUM index " ++ toString v ++
    " has no matching label in the source catalog — the " ++
    "column definition changed while the stream was running, or the " ++
    "schema could not be read. Refusing to write the raw index.")
  if v = 0 then .ok []
  else
    match labels with
    | some l => Stop.orErr refused l[v - 1]?
    | none => .error (.err refused)

/-- The labels of the bits that are set, with commas between. -/
def setLabels (comma : α) (v : Nat) : List (List α × Nat) → List α → List α
  | [], out => out
  | (label, i) :: rest, out =>
      setLabels comma v rest
        (if v.testBit i then (if out ≠ [] then out ++ [comma] else out) ++ label else out)

/-- A SET cell is a bitmask over the members. -/
def renderSet (comma : α) (labels : Option (List (List α))) (v : Nat) :
    Except (Stop Error) (List α) :=
  (Stop.orErr (bad ("SET column has no members in the source catalog — refusing to write " ++
    "the raw bitmask, which is not what the bulk load writes")) labels).bind fun l =>
      if l.length < 64 ∧ 2 ^ l.length ≤ v then
        .error (.err (bad ("SET bitmask " ++ toString v ++ " carries bits outside the " ++
          toString l.length ++ " declared members — the " ++
          "column definition changed while the stream was running")))
      else if 64 < l.length then .error .panic
      else .ok (setLabels comma v l.zipIdx [])

/-- The labels of the bits that are set. -/
def chosen (v : Nat) (l : List (List α × Nat)) : List (List α) :=
  (l.filter fun m => v.testBit m.2).map Prod.fst

theorem setLabels_eq (comma : α) (v : Nat) (l : List (List α × Nat)) (out : List α) :
    setLabels comma v l out = Separated.joined comma out (chosen v l) := by
  induction l generalizing out with
  | nil => rfl
  | cons m l ih =>
      have kept : chosen v (m :: l) = if v.testBit m.2 then m.1 :: chosen v l else chosen v l := by
        rw [chosen, List.filter_cons]
        split <;> rfl
      rw [setLabels, ih, kept]
      split
      · rw [Separated.joined]
      · rfl

end labels

/-! ## A cell -/

/-- The real type and the length out of STRING metadata. -/
def stringMeta (metadata : Nat) : Nat × Nat :=
  let rt := metadata / 256 % 256
  let len := metadata % 256
  if rt &&& 0x30 ≠ 0x30 then (rt ||| 0x30, len ||| ((rt &&& 0x30) ^^^ 0x30) <<< 4) else (rt, len)

/-- Bytes after a length of one or two. -/
def prefixed (max : Nat) : Read Bytes :=
  (if max < 256 then u8 else uintLe 2).andThen fun n => take n

/-- Bytes after a length of as many as the metadata says. -/
def blob (metadata : Nat) : Read Bytes :=
  (if metadata = 1 then u8 else if metadata = 2 then uintLe 2 else if metadata = 3 then uintLe 3
    else uintLe 4).andThen
    fun n => take n

def integer (n : Nat) (unsigned : Bool) : Read Bytes :=
  (uintLe n).andThen fun v =>
    .ret (if unsigned then ascii (itoa v) else itoaInt (Int.bmod v (256 ^ n)))

def enumCell (labels : Option (List Bytes)) (one : Bool) : Read Bytes :=
  (if one then u8 else uintLe 2).andThen fun v => .lift (renderEnum labels v)

/-- At most eight of the bytes are the mask. -/
def setCell (labels : Option (List Bytes)) (len : Nat) : Read Bytes :=
  (take (max len 1)).andThen fun b => .lift (renderSet 44 labels (fromLe (b.take 8)))

def hexByte (n : Nat) : String := "0x" ++ String.ofList ((Radix.digits 16 2 n).map Nat.digitChar)

def legacyTimestamp : Error :=
  bad ("the legacy TIMESTAMP (0x07) binlog encoding — rebuild the " ++
    "table (ALTER TABLE ... FORCE) so the server writes " ++
    "TIMESTAMP2, or drop this column from the publication")

def decodeCell (floats : Floats) (c : ColDef) : Read Bytes :=
  match c.kind with
  | .tiny => u8.andThen fun v =>
      .ret (if c.unsigned then ascii (itoa v) else itoaInt (Int.bmod v 256))
  | .short => integer 2 c.unsigned
  | .int24 => integer 3 c.unsigned
  | .long => integer 4 c.unsigned
  | .longlong => integer 8 c.unsigned
  | .float => (uintLe 4).andThen fun v => .ret (floats.single v)
  | .double => (uintLe 8).andThen fun v => .ret (floats.double v)
  | .year => u8.andThen fun v => .ret (if v = 0 then [48, 48, 48, 48] else ascii (itoa (1900 + v)))
  | .date => (uintLe 3).andThen fun v => .ret (dateText (v / 2 ^ 9) (v / 2 ^ 5 % 2 ^ 4) (v % 2 ^ 5))
  | .timestamp => .fail (.err legacyTimestamp)
  | .timestamp2 => timestamp2 (c.metadata % 256)
  | .datetime2 => datetime2 (c.metadata % 256)
  | .time2 => time2 (c.metadata % 256)
  | .newdecimal => decodeDecimal (c.metadata / 256) (c.metadata % 256)
  | .varchar => prefixed c.metadata
  | .varString => prefixed c.metadata
  | .bit => take (max (c.metadata % 256 + if 0 < c.metadata / 256 then 1 else 0) 1)
  | .string =>
      let (rt, len) := stringMeta c.metadata
      if rt = 0xf7 then enumCell c.labels (len = 1)
      else if rt = 0xf8 then setCell c.labels len
      else (prefixed len).andThen fun v =>
        .ret (if c.binary ∧ v.length < len then v ++ List.replicate (len - v.length) 0 else v)
  | .enum => enumCell c.labels (c.metadata % 256 = 1)
  | .set => setCell c.labels (c.metadata % 256)
  | .blob => blob c.metadata
  | .tinyBlob => blob c.metadata
  | .mediumBlob => blob c.metadata
  | .longBlob => blob c.metadata
  | .geometry => blob c.metadata
  | .json => blob c.metadata
  | .null => .ret []
  | .other code => .fail (.err (bad ("unsupported column type " ++ hexByte code)))

/-! ## Numbers read back -/

theorem uintBe_reads {w v : Nat} (fits : v < 256 ^ w) : (uintBe w).Reads (be w v) v := by
  refine (Cursor.reads_take _ Copy.length_be).andThen_nil ?_
  rw [Copy.fromBe_be fits]
  exact Cursor.reads_ret v

theorem u8_reads {v : Nat} (fits : v < 256) : u8.Reads (be 1 v) v := by
  intro rest
  have byte : be 1 v = [UInt8.ofNat v] := by
    rw [be, Radix.digits, Radix.digits, List.nil_append, Nat.mod_eq_of_lt fits]
    rfl
  have code : (UInt8.ofNat v).toNat = v := UInt8.toNat_ofNat_of_lt fits
  rw [byte, List.singleton_append, u8, code]

end Apitap.Rows
