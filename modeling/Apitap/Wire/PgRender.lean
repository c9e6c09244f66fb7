import Apitap.Wire.CalendarText

/-!
# The text of a binary value by its type

`render` appends what the type's output function prints: integers, floats in their shortest
digits under Postgres' own rule on exponents, and the other types of a row. A value that is
too short is an error, and so is a type without a renderer; nothing is a panic.
-/

namespace Apitap.BinDec

open Foundation Decimal
open Copy (be fromBe i16)

/-! ## Floats -/

/-- A signed 32-bit number as Rust parses it. -/
def parseI32 (s : Bytes) : Option Int :=
  let (neg, digits) := match s with
    | 45 :: rest => (true, rest)
    | 43 :: rest => (false, rest)
    | rest => (false, rest)
  if digits ≠ [] ∧ digits.all fun c => 48 ≤ c && c ≤ 57 then
    let n : Int := Radix.value 10 (digits.map fun c => c.toNat - 48)
    checked 32 (if neg then -n else n)
  else none

/-- The significant digits of a shortest text and the exponent of the first one. -/
def normalize (s : Bytes) : Bytes × Int :=
  let mant := s.takeWhile fun c => c ≠ 101 && c ≠ 69
  let exp : Option Int :=
    match s.drop mant.length with
    | [] => none
    | _ :: text => some ((parseI32 text).getD 0)
  let int := mant.takeWhile (· ≠ 46)
  let frac := (mant.drop int.length).drop 1
  let lead := frac.takeWhile (· = 48)
  let (pushed, exp10) : Bytes × Int := match exp with
    | some e => ((int ++ frac).take 32, e)
    | none =>
        if int = [48] then
          let pushed := (frac.drop lead.length).take 32
          (pushed, if pushed = [] then 0 else -(lead.length : Int) - 1)
        else ((int ++ frac).take 32, (int.length : Int) - 1)
  let digits := (pushed.reverse.dropWhile (· = 48)).reverse
  if digits = [] then ([48], if exp.isSome then exp10 else 0) else (digits, exp10)

/-- Digits and an exponent in Postgres' notation. -/
def fixedOrScientific (single : Bool) (digits : Bytes) (exp10 : Int) : Bytes :=
  if -4 ≤ exp10 ∧ exp10 < (if single then 6 else 15) then
    if exp10 < 0 then [48, 46] ++ List.replicate (-exp10 - 1).toNat 48 ++ digits
    else
      let intLen := (exp10 + 1).toNat
      if digits.length ≤ intLen then digits ++ List.replicate (intLen - digits.length) 48
      else digits.take intLen ++ 46 :: digits.drop intLen
  else
    digits.take 1 ++ (if 1 < digits.length then 46 :: digits.drop 1 else []) ++
      [101, if exp10 < 0 then 45 else 43] ++
      (if exp10.natAbs < 10 then [48] else []) ++ ascii (itoa exp10.natAbs)

/-- A float by its bits: the width of its exponent and of its mantissa. -/
def pushFloat (floats : Floats) (single : Bool) (bits : Nat) : Bytes :=
  let (expWidth, mantWidth) := if single then (8, 23) else (11, 52)
  let negative := bits / 2 ^ (expWidth + mantWidth) % 2 = 1
  if bits / 2 ^ mantWidth % 2 ^ expWidth = 2 ^ expWidth - 1 then
    if bits % 2 ^ mantWidth ≠ 0 then nan
    else if negative then 45 :: infinity 73
    else infinity 73
  else
    let s := if single then floats.single bits else floats.double bits
    let (neg, s) := match s with
      | 45 :: rest => (true, rest)
      | rest => (false, rest)
    let (digits, exp10) := normalize s
    (if neg then [45] else []) ++ if digits = [48] then [48] else fixedOrScientific
      single digits exp10

/-! ## Every type -/

def hexDigit (n : Nat) : UInt8 := UInt8.ofNat (if n < 10 then 48 + n else 87 + n)

def pushHex (raw : Bytes) : Bytes :=
  raw.flatMap fun b => [hexDigit (b.toNat / 16), hexDigit (b.toNat % 16)]

def uuid (raw : Bytes) : Except (Stop Error) Bytes :=
  if raw.length ≠ 16 then .error (.err (short 2950))
  else .ok (pushHex (raw.take 4) ++ 45 :: pushHex ((raw.drop 4).take 2) ++
    45 :: pushHex ((raw.drop 6).take 2) ++ 45 :: pushHex ((raw.drop 8).take 2) ++
    45 :: pushHex (raw.drop 10))

/-- A big-endian two's complement number. -/
def signed (raw : Bytes) : Int :=
  let n := fromBe raw
  if n < 2 ^ (8 * raw.length - 1) then n else (n : Int) - 2 ^ (8 * raw.length)

def timetz (raw : Bytes) : Except (Stop Error) Bytes :=
  if raw.length ≠ 12 then .error (.err (short 1266))
  else
    let off := -signed (raw.drop 8)
    let a := off.natAbs
    let mm := a / 60 % 60
    let ss := a % 60
    .ok (time (signed (raw.take 8)) ++ [if off < 0 then 45 else 43] ++ ascii (push2 (a / 3600)) ++
      if mm ≠ 0 ∨ ss ≠ 0 then
        58 :: ascii (push2 mm) ++ if ss ≠ 0 then 58 :: ascii (push2 ss) else []
      else [])

/-- A value of a fixed width. -/
def fixed (oid width : Nat) (raw : Bytes) (k : Bytes → Except (Stop Error) Bytes) :
    Except (Stop Error) Bytes :=
  if raw.length = width then k raw else .error (.err (short oid))

def jsonbVersion (raw : Bytes) : Error :=
  let first := match raw with
    | [] => "None"
    | b :: _ => "Some(" ++ toString b.toNat ++ ")"
  .transfer ("pgoutput binary: jsonb version " ++ first ++ " (only 1 is known)")

def noRenderer (oid : Nat) : Error :=
  .transfer (s!"pgoutput binary: no text renderer for type OID {oid} yet — " ++
    "set APITAP_PG_BINARY=0 to stream this table in text mode")

/-- What is appended for one value. -/
def render (floats : Floats) (oid : Nat) (raw : Bytes) : Except (Stop Error) Bytes :=
  match oid with
  | 16 =>
      match raw with
      | [] => .error (.err (short oid))
      | b :: _ => .ok [if b ≠ 0 then 116 else 102]
  | 21 => fixed oid 2 raw fun raw => .ok (itoaInt (signed raw))
  | 23 => fixed oid 4 raw fun raw => .ok (itoaInt (signed raw))
  | 20 => fixed oid 8 raw fun raw => .ok (itoaInt (signed raw))
  | 26 | 28 | 29 => fixed oid 4 raw fun raw => .ok (ascii (itoa (fromBe raw)))
  | 700 => fixed oid 4 raw fun raw => .ok (pushFloat floats true (fromBe raw))
  | 701 => fixed oid 8 raw fun raw => .ok (pushFloat floats false (fromBe raw))
  | 1700 => numeric raw
  | 25 | 1043 | 1042 | 19 | 114 | 142 | 705 => .ok raw
  | 17 => .ok ([92, 120] ++ pushHex raw)
  | 3802 =>
      match raw with
      | 1 :: text => .ok text
      | raw => .error (.err (jsonbVersion raw))
  | 2950 => uuid raw
  | 1082 => fixed oid 4 raw fun raw => Stop.orPanic (date (signed raw))
  | 1083 => fixed oid 8 raw fun raw => .ok (time (signed raw))
  | 1114 => fixed oid 8 raw fun raw => Stop.orPanic (timestamp (signed raw) false)
  | 1184 => fixed oid 8 raw fun raw => Stop.orPanic (timestamp (signed raw) true)
  | 1266 => timetz raw
  | other => .error (.err (noRenderer other))

/-! ## Nothing panics -/

theorem signed_bounds (raw : Bytes) (some_byte : raw ≠ []) :
    -2 ^ (8 * raw.length - 1) ≤ signed raw ∧ signed raw < 2 ^ (8 * raw.length - 1) := by
  have below := Copy.fromBe_lt raw
  have bits : 256 ^ raw.length = 2 * 2 ^ (8 * raw.length - 1) := by
    have length : 0 < raw.length := List.length_pos_iff.mpr some_byte
    rw [← pow_succ', show (256 : Nat) = 2 ^ 8 from rfl, ← pow_mul,
      show 8 * raw.length - 1 + 1 = 8 * raw.length by omega]
  have whole : (2 : Int) ^ (8 * raw.length) = 2 * 2 ^ (8 * raw.length - 1) := by
    have length : 0 < raw.length := List.length_pos_iff.mpr some_byte
    rw [← pow_succ', show 8 * raw.length - 1 + 1 = 8 * raw.length by omega]
  have half : ((2 ^ (8 * raw.length - 1) : Nat) : Int) = 2 ^ (8 * raw.length - 1) := by
    push_cast
    rfl
  simp only [signed]
  split
  case isTrue low => omega
  case isFalse high => omega

theorem pushDate_some {days : Int} (low : -2 ^ 40 ≤ days) (high : days < 2 ^ 40) :
    ∃ r, pushDate days = some r := by
  obtain ⟨text, shown, -⟩ := pushDate_reads days low high
  exact ⟨_, shown⟩

theorem date_some {days : Int} (low : -2 ^ 31 ≤ days) (high : days < 2 ^ 31) :
    ∃ text, date days = some text := by
  rw [date]
  split
  · exact ⟨_, rfl⟩
  · split
    · exact ⟨_, rfl⟩
    · have day_low : -2 ^ 40 ≤ days := by omega
      have day_high : days < 2 ^ 40 := by omega
      obtain ⟨r, shown⟩ := pushDate_some day_low day_high
      rw [shown]
      exact ⟨_, rfl⟩

theorem timestamp_some {t : Int} (tz : Bool) (low : -2 ^ 63 ≤ t) (high : t < 2 ^ 63) :
    ∃ text, timestamp t tz = some text := by
  rw [timestamp]
  split
  · exact ⟨_, rfl⟩
  · split
    · exact ⟨_, rfl⟩
    · have day_low : -2 ^ 40 ≤ t / usecsPerDay := by
        rw [usecsPerDay]
        omega
      have day_high : t / usecsPerDay < 2 ^ 40 := by
        rw [usecsPerDay]
        omega
      obtain ⟨r, shown⟩ := pushDate_some day_low day_high
      simp only [shown]
      exact ⟨_, rfl⟩

theorem numeric_calm (raw : Bytes) : numeric raw ≠ .error .panic := by
  simp only [numeric]
  split <;> simp only [ne_eq, reduceCtorEq, not_false_eq_true, Except.error.injEq]
  repeat' split
  all_goals simp

theorem fixed_calm {oid width : Nat} {raw : Bytes} {k : Bytes → Except (Stop Error) Bytes}
    (calm : raw.length = width → k raw ≠ .error .panic) :
    fixed oid width raw k ≠ .error .panic := by
  rw [fixed]
  split
  case isTrue wide => exact calm wide
  case isFalse => exact fun is => nomatch is

theorem orPanic_calm {x : Option Bytes} (present : ∃ text, x = some text) :
    (Stop.orPanic x : Except (Stop Error) Bytes) ≠ .error .panic := by
  obtain ⟨text, rfl⟩ := present
  exact fun is => nomatch is

theorem signed_wide {raw : Bytes} {width : Nat} (positive : 0 < width)
    (wide : raw.length = width) :
    -2 ^ (8 * width - 1) ≤ signed raw ∧ signed raw < 2 ^ (8 * width - 1) := by
  have some_byte : raw ≠ [] := List.length_pos_iff.mp (wide ▸ positive)
  exact wide ▸ signed_bounds raw some_byte

/-- No bytes of any type make the renderer panic. -/
theorem render_calm (floats : Floats) (oid : Nat) (raw : Bytes) :
    render floats oid raw ≠ .error .panic := by
  have shown : ∀ {x : Bytes}, (Except.ok x : Except (Stop Error) Bytes) ≠ .error .panic :=
    fun is => nomatch is
  have refused : ∀ {e : Error}, (Except.error (.err e) : Except (Stop Error) Bytes) ≠
    .error .panic :=
    fun is => nomatch is
  have day : ∀ {raw : Bytes}, raw.length = 4 →
      (Stop.orPanic (date (signed raw)) : Except (Stop Error) Bytes) ≠ .error .panic := by
    intro raw wide
    obtain ⟨low, high⟩ := signed_wide (by decide) wide
    exact orPanic_calm (date_some low high)
  have instant : ∀ {raw : Bytes} (tz : Bool), raw.length = 8 →
      (Stop.orPanic (timestamp (signed raw) tz) : Except (Stop Error) Bytes) ≠ .error .panic := by
    intro raw tz wide
    obtain ⟨low, high⟩ := signed_wide (by decide) wide
    exact orPanic_calm (timestamp_some tz low high)
  have identifier : uuid raw ≠ .error .panic := by
    rw [uuid]
    split
    · exact refused
    · exact shown
  have zoned : timetz raw ≠ .error .panic := by
    rw [timetz]
    split
    · exact refused
    · exact shown
  unfold render
  split
  case h_1 =>
    split
    · exact refused
    · exact shown
  case h_10 => exact numeric_calm raw
  case h_19 =>
    split
    · exact shown
    · exact refused
  case h_20 => exact identifier
  case h_21 => exact fixed_calm day
  case h_23 => exact fixed_calm (instant false)
  case h_24 => exact fixed_calm (instant true)
  case h_25 => exact zoned
  all_goals first
    | exact shown
    | exact refused
    | exact fixed_calm fun _ => shown

end Apitap.BinDec
