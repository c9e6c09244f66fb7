import Apitap.Logbased.Statement
import Apitap.Wire.BinlogCell

/-!
# ENUM and SET members

A catalog column type names its members quoted and escaped; the decoder pulls them out by
walking the text, and renders an ENUM cell by index and a SET cell by bit. Text is a list of
characters here, and a rendered cell is its text.
-/

namespace Apitap.Labels

open Foundation (Stop)
open Mysource (isWhitespace)
open Foundation.Separated (LeadsEmpty joined joined_eq_iff)
open Rows (renderEnum renderSet setLabels setLabels_eq chosen)

/-- What stands between the first `(` and the last `)`. -/
def body (columnType : List Char) : Option (List Char) :=
  match columnType.dropWhile (· ≠ '(') with
  | [] => none
  | _ :: rest =>
      match rest.reverse.dropWhile (· ≠ ')') with
      | [] => none
      | _ :: inner => some inner.reverse

/-- The character an escape stands for. -/
def unescape (c : Char) : Char :=
  if c = '0' then '\x00'
  else if c = 'n' then '\n'
  else if c = 'r' then '\r'
  else if c = 'Z' then '\x1a'
  else c

/-- The walk over the members: the quote state, the label being read, the labels read. -/
def walk : Bool → List Char → List (List Char) → List Char → List (List Char)
  | _, _, out, [] => out
  | true, cur, out, ch :: chars =>
      if ch = '\'' then
        match chars with
        | '\'' :: chars => walk true (cur ++ ['\'']) out chars
        | chars => walk false [] (out ++ [cur]) chars
      else if ch = '\\' then
        match chars with
        | c :: chars => walk true (cur ++ [unescape c]) out chars
        | [] => out
      else walk true (cur ++ [ch]) out chars
  | false, cur, out, ch :: chars =>
      if ch = '\'' then walk true cur out chars else walk false cur out chars

/-- The members of an ENUM or SET column. -/
def enumSetLabels (columnType : List Char) : Option (List (List Char)) :=
  let lower := (columnType.dropWhile isWhitespace).map Char.toLower
  if "enum(".toList.isPrefixOf lower || "set(".toList.isPrefixOf lower then
    (body columnType).map (walk false [] [])
  else none

/-! ## The text the server writes -/

inductive Kind where
  | enum
  | set
deriving DecidableEq, Repr

def Kind.word : Kind → List Char
  | .enum => "enum".toList
  | .set => "set".toList

/-- A character as the server writes it inside quotes. -/
def escape (c : Char) : List Char :=
  if c = '\'' then ['\'', '\'']
  else if c = '\\' then ['\\', '\\']
  else if c = '\n' then ['\\', 'n']
  else if c = '\r' then ['\\', 'r']
  else if c = '\x00' then ['\\', '0']
  else if c = '\x1a' then ['\\', 'Z']
  else [c]

def quote (label : List Char) : List Char := '\'' :: (label.flatMap escape ++ ['\''])

def listed (labels : List (List Char)) : List Char := [','].intercalate (labels.map quote)

def columnType (kind : Kind) (labels : List (List Char)) : List Char :=
  kind.word ++ '(' :: (listed labels ++ [')'])

/-! ## The walk -/

/-- One escaped character is read back. -/
theorem walk_escape (cur : List Char) (out : List (List Char)) (c : Char) (chars : List Char) :
    walk true cur out (escape c ++ chars) = walk true (cur ++ [c]) out chars := by
  unfold escape
  split
  case isTrue is => rw [is]; rfl
  case isFalse quoteless =>
      split
      case isTrue is => rw [is]; rfl
      case isFalse plain =>
          split
          case isTrue is => rw [is]; rfl
          case isFalse =>
              split
              case isTrue is => rw [is]; rfl
              case isFalse =>
                  split
                  case isTrue is => rw [is]; rfl
                  case isFalse =>
                      split
                      case isTrue is => rw [is]; rfl
                      case isFalse =>
                          rw [List.singleton_append, walk.eq_def]
                          simp only [if_neg quoteless, if_neg plain]

theorem walk_escaped (label cur : List Char) (out : List (List Char)) (chars : List Char) :
    walk true cur out (label.flatMap escape ++ chars) = walk true (cur ++ label) out chars := by
  induction label generalizing cur with
  | nil => rw [List.flatMap_nil, List.nil_append, List.append_nil]
  | cons c label ih =>
      rw [List.flatMap_cons, List.append_assoc, walk_escape, ih, List.append_assoc,
        List.singleton_append]

/-- A quote that is not doubled ends the label. -/
theorem walk_close (cur : List Char) (out : List (List Char)) {chars : List Char}
    (single : chars.head? ≠ some '\'') :
    walk true cur out ('\'' :: chars) = walk false [] (out ++ [cur]) chars := by
  cases chars with
  | nil => rfl
  | cons c chars =>
      have other : c ≠ '\'' := fun is => single (congrArg some is)
      simp [walk, other]

theorem walk_label (label : List Char) (out : List (List Char)) {chars : List Char}
    (single : chars.head? ≠ some '\'') :
    walk false [] out (quote label ++ chars) = walk false [] (out ++ [label]) chars := by
  have opened : walk false [] out (quote label ++ chars) =
      walk true [] out (label.flatMap escape ++ '\'' :: chars) := by
    rw [quote, List.cons_append, List.append_assoc]
    rfl
  rw [opened, walk_escaped, walk_close _ _ single, List.nil_append]

theorem listed_cons (label next : List Char) (labels : List (List Char)) :
    listed (label :: next :: labels) = quote label ++ ',' :: listed (next :: labels) := by
  simp [listed, List.intercalate]

/-- The members come back one by one. -/
theorem walk_listed (labels : List (List Char)) (out : List (List Char)) :
    walk false [] out (listed labels) = out ++ labels := by
  induction labels generalizing out with
  | nil => simp [listed, List.intercalate, walk]
  | cons label labels ih =>
      cases labels with
      | nil =>
          have last := walk_label label out (show ([] : List Char).head? ≠ some '\'' by decide)
          rw [List.append_nil] at last
          simpa [listed, List.intercalate, walk] using last
      | cons next labels =>
          have comma : walk false [] (out ++ [label]) (',' :: listed (next :: labels)) =
              walk false [] (out ++ [label]) (listed (next :: labels)) := rfl
          have single : (',' :: listed (next :: labels)).head? ≠ some '\'' := by simp
          rw [listed_cons, walk_label _ _ single, comma, ih, List.append_assoc,
            List.singleton_append]

theorem body_columnType (kind : Kind) (labels : List (List Char)) :
    body (columnType kind labels) = some (listed labels) := by
  have opened : (columnType kind labels).dropWhile (· ≠ '(') =
      '(' :: (listed labels ++ [')']) := by
    cases kind with
    | enum => rfl
    | set => rfl
  have closed : (listed labels ++ [')']).reverse.dropWhile (· ≠ ')') =
      ')' :: (listed labels).reverse := by
    rw [List.reverse_append]
    rfl
  rw [body, opened]
  simp only [closed, List.reverse_reverse]

/-- Parsing inverts the server's quoting. -/
theorem enumSetLabels_columnType (kind : Kind) (labels : List (List Char)) :
    enumSetLabels (columnType kind labels) = some labels := by
  have known : ("enum(".toList.isPrefixOf
        (((columnType kind labels).dropWhile isWhitespace).map Char.toLower) ||
      "set(".toList.isPrefixOf
        (((columnType kind labels).dropWhile isWhitespace).map Char.toLower)) = true := by
    cases kind with
    | enum => rfl
    | set => rfl
  rw [enumSetLabels]
  simp only [known, if_true, body_columnType, Option.map_some, walk_listed, List.nil_append]

/-! ## The bits -/

/-- The members whose bits are set, from bit `i` on. -/
def selectedFrom (v : BitVec 64) (i : Nat) : List (List Char) → List (List Char)
  | [] => []
  | label :: labels =>
      if v.getLsbD i then label :: selectedFrom v (i + 1) labels else selectedFrom v (i + 1) labels

def selected (v : BitVec 64) (labels : List (List Char)) : List (List Char) :=
  selectedFrom v 0 labels

theorem chosen_eq (v : BitVec 64) (i : Nat) (labels : List (List Char)) :
    chosen v.toNat (labels.zipIdx i) = selectedFrom v i labels := by
  induction labels generalizing i with
  | nil => rfl
  | cons label labels ih =>
      rw [selectedFrom, ← ih, List.zipIdx_cons, chosen, List.filter_cons]
      dsimp only
      rw [BitVec.testBit_toNat]
      split
      · rfl
      · rfl

/-- A bitmask reaches past the members where one of its bits does. -/
theorem outside_iff (v : BitVec 64) {n : Nat} (fits : n ≤ 64) :
    n < 64 ∧ 2 ^ n ≤ v.toNat ↔ ∃ k, n ≤ k ∧ v.getLsbD k = true := by
  constructor
  · rintro ⟨-, past⟩
    by_contra none
    refine absurd past (Nat.not_le.mpr (Nat.lt_pow_two_of_testBit _ fun k le => ?_))
    rw [BitVec.testBit_toNat]
    exact Bool.eq_false_iff.mpr fun bit => none ⟨k, le, bit⟩
  · rintro ⟨k, le, bit⟩
    have lt : k < 64 := BitVec.lt_of_getLsbD bit
    rw [← BitVec.testBit_toNat] at bit
    have reach : 2 ^ k ≤ v.toNat := Nat.ge_two_pow_of_testBit bit
    exact ⟨by omega, Nat.le_trans (Nat.pow_le_pow_right (by decide) le) reach⟩

/-! ## What a SET cell shows -/

/-- Members as written come back as listed; an index shows its member, a bitmask its members
with commas between them, and what lies past the members is refused. -/
structure Decodes (kind : Kind) (labels : List (List Char)) (i : Nat) (v : BitVec 64) : Prop where
  parsed : enumSetLabels (columnType kind labels) = some labels
  member : ∀ label, 1 ≤ i → labels[i - 1]? = some label →
    renderEnum (some labels) i = .ok label
  past : labels.length < i → ∃ e, renderEnum (some labels) i = .error (.err e)
  shown : labels.length ≤ 64 → (∀ k, v.getLsbD k = true → k < labels.length) →
    renderSet ',' (some labels) v.toNat = .ok ([','].intercalate (selected v labels))
  outside : labels.length ≤ 64 → (∃ k, labels.length ≤ k ∧ v.getLsbD k = true) →
    ∃ e, renderSet ',' (some labels) v.toNat = .error (.err e)

theorem decodes_iff (kind : Kind) (labels : List (List Char)) (i : Nat) (v : BitVec 64) :
    Decodes kind labels i v ↔
      ¬ (labels.length ≤ 64 ∧ (∀ k, v.getLsbD k = true → k < labels.length) ∧
        LeadsEmpty (selected v labels)) := by
  have rendered (few : labels.length ≤ 64)
      (inside : ∀ k, v.getLsbD k = true → k < labels.length) :
      renderSet ',' (some labels) v.toNat = .ok (joined ',' [] (selected v labels)) := by
    have none : ¬ (labels.length < 64 ∧ 2 ^ labels.length ≤ v.toNat) := fun past => by
      obtain ⟨k, le, bit⟩ := (outside_iff v few).mp past
      exact absurd (inside k bit) (Nat.not_lt.mpr le)
    rw [renderSet, Stop.orErr_some, Stop.ok_bind, if_neg none, if_neg (Nat.not_lt.mpr few),
      setLabels_eq, chosen_eq, selected]
  constructor
  · rintro decodes ⟨few, inside, leads⟩
    have same := (rendered few inside).symm.trans (decodes.shown few inside)
    exact (joined_eq_iff _).mp (Except.ok.inj same) leads
  · intro within
    refine ⟨enumSetLabels_columnType kind labels, fun label first at_ => ?_, fun past => ?_,
      fun few inside => ?_, fun few past => ?_⟩
    · rw [Rows.renderEnum.eq_def, if_neg (by omega)]
      simp only [at_, Stop.orErr_some]
    · have none : labels[i - 1]? = none := List.getElem?_eq_none (by omega)
      rw [Rows.renderEnum.eq_def, if_neg (by omega)]
      simp only [none, Stop.orErr_none]
      exact ⟨_, rfl⟩
    · rw [rendered few inside, (joined_eq_iff _).mpr fun leads => within ⟨few, inside, leads⟩]
    · rw [renderSet, Stop.orErr_some, Stop.ok_bind, if_pos ((outside_iff v few).mpr past)]
      exact ⟨_, rfl⟩

namespace Blank

/-- Both members of SET('', 'a') show as the second one alone. -/
theorem blank_member_loses_its_comma : ¬ Decodes .set [[], ['a']] 1 3#64 := by
  intro decodes
  have bits : ∀ k < 64, (3#64).getLsbD k = true → k < 2 := by decide
  have shown := decodes.shown (by decide) fun k bit => bits k (BitVec.lt_of_getLsbD bit) bit
  have written : renderSet ',' (some [[], ['a']]) (3#64).toNat = .ok ['a'] := by decide
  rw [written] at shown
  exact absurd (Except.ok.inj shown) (by decide)

end Blank

end Apitap.Labels
