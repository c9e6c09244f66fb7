import Apitap.Foundation.Binary64
import Apitap.Logbased.Statement
import Mathlib.Data.Set.Basic
import Mathlib.Data.Char
import Mathlib.Data.List.DropRight

/-!
# Watermark texts

A cursor's high-water mark travels as text. Numeric cursors are compared by
`cmpNumericText`: two plain digit texts exactly, digit by digit, and everything else
that `f64` reads through `f64`. `wmMax` keeps the larger of two marks, `wmPick` the
fresher of a state and a data mark, and `resolveWatermark` decides between the two.
-/

namespace Apitap.Plan

open Foundation
open Mysource (Text isWhitespace lower)

def trim (s : Text) : Text := (s.dropWhile isWhitespace).rdropWhile isWhitespace

/-- A leading sign, and what follows it. -/
def sign : Text → Bool × Text
  | '-' :: r => (true, r)
  | '+' :: r => (false, r)
  | s => (false, s)

/-- `split_once('.')`; without a point the fraction is empty. -/
def splitPoint (s : Text) : Text × Text :=
  (s.takeWhile (· ≠ '.'), (s.dropWhile (· ≠ '.')).tail)

def digits (s : Text) : Bool := s.all Char.isDigit

/-- The digits around a point, when there is one digit at least and nothing else. -/
def pointed (s : Text) : Option (Text × Text) :=
  let (i, f) := splitPoint s
  if (i = [] ∧ f = []) ∨ digits i = false ∨ digits f = false then none else some (i, f)

/-! ### Exact comparison -/

/-- A plain digit text without its padding. -/
structure Parts where
  neg : Bool
  int : Text
  frac : Text

def parts (s : Text) : Option Parts :=
  let (neg, s) := sign (trim s)
  (pointed s).map fun (i, f) => ⟨neg, i.dropWhile (· = '0'), f.rdropWhile (· = '0')⟩

def Parts.zero (p : Parts) : Bool := p.int.isEmpty && p.frac.isEmpty

def Parts.negative (p : Parts) : Bool := p.neg && !p.zero

def Parts.mag (p q : Parts) : Ordering :=
  ((compare p.int.length q.int.length).then (compare p.int q.int)).then (compare p.frac q.frac)

def Parts.cmp (p q : Parts) : Ordering :=
  if p.negative ≠ q.negative then if p.negative then .lt else .gt
  else if p.negative then (p.mag q).swap else p.mag q

/-! ### Comparison through `f64` -/

/-- What `parse::<f64>` accepts. -/
inductive Literal where
  | nan
  | inf (neg : Bool)
  | number (neg : Bool) (int frac : Text) (exp : ℤ)

/-- A digit's value. -/
def digit (c : Char) : Nat := c.toNat - 48

/-- The digits' number. -/
def natOf (s : Text) : Nat := s.foldl (fun n c => 10 * n + digit c) 0

/-- An exponent's digits with their sign. -/
def exponent (s : Text) : Option ℤ :=
  let (neg, r) := sign s
  if r = [] ∨ digits r = false then none else some (if neg then -natOf r else natOf r)

/-- An unsigned number, with an exponent or without. -/
def number (neg : Bool) (s : Text) : Option Literal :=
  let e := fun c => c = 'e' ∨ c = 'E'
  match s.dropWhile (fun c => ¬e c) with
  | [] => (pointed s).map fun (i, f) => .number neg i f 0
  | _ :: exp =>
      (pointed (s.takeWhile fun c => ¬e c)).bind fun (i, f) =>
        (exponent exp).map (.number neg i f)

def literal (s : Text) : Option Literal :=
  let (neg, r) := sign s
  if lower r = "inf".toList ∨ lower r = "infinity".toList then some (.inf neg)
  else if lower r = "nan".toList then some .nan
  else number neg r

/-- A fraction's digits. -/
def fracOf : Text → ℚ
  | [] => 0
  | c :: s => (digit c + fracOf s) / 10

def signed (neg : Bool) (q : ℚ) : ℚ := if neg then -q else q

/-- The number a literal denotes. -/
def Literal.value : Literal → Option Extended
  | .nan => none
  | .inf neg => some (if neg then ⊥ else ((⊤ : WithTop ℚ) : Extended))
  | .number neg i f exp => some ((signed neg ((natOf i + fracOf f) * 10 ^ exp) : WithTop
      ℚ) : Extended)

/-- The double it parses to; `none` for NaN. -/
def Literal.f64 (l : Literal) : Option Extended := l.value.map Extended.toBinary64

def partialCmp (x y : Option Extended) : Option Ordering :=
  x.bind fun x => y.map fun y => compare x y

def cmpNumericText (a b : Text) : Option Ordering :=
  match parts a, parts b with
  | some p, some q => some (p.cmp q)
  | _, _ =>
      (literal (trim a)).bind fun x =>
        (literal (trim b)).bind fun y => partialCmp x.f64 y.f64

/-- `>=` of two strings. -/
def atLeast (x y : Text) : Bool := (compare x y).isGE

def xWins (x y : Text) (numeric : Bool) : Bool :=
  if numeric then
    match cmpNumericText x y with
    | some o => o ≠ .lt
    | none =>
        match cmpNumericText x x, cmpNumericText y y with
        | some _, none => true
        | none, some _ => false
        | _, _ => atLeast x y
  else atLeast x y

def wmMax (a b : Option Text) (numeric : Bool) : Option Text :=
  match a, b with
  | some x, some y => some (if xWins x y numeric then x else y)
  | a, none => a
  | none, b => b

def wmPick (numeric : Bool) (state data : Text) : Text :=
  if numeric then
    match cmpNumericText state data with
    | some o => if o ≠ .lt then state else data
    | none => if (cmpNumericText state state).isSome then state else data
  else if atLeast state data then state else data

inductive WmArbitration where
  | stateAuthoritative
  | greatest (numeric : Bool)

def resolveWatermark (ownState dataMax : Option Text) (siblingStateRows : Bool)
    (arb : WmArbitration) (dest sourceId : String) : Except String (Option Text) :=
  match ownState with
  | some s =>
      .ok (some (match arb with
        | .stateAuthoritative => s
        | .greatest numeric =>
            if siblingStateRows then s
            else
              match dataMax with
              | some d => wmPick numeric s d
              | none => s))
  | none =>
      if siblingStateRows then
        .error (s!"destination {dest} has state rows from other sources but none for " ++
          s!"'{sourceId}' — a data-derived watermark would be wrong here. " ++
          "Run mode='replace' to rebuild, or seed a state row manually")
      else .ok dataMax

end Apitap.Plan
