import Mathlib.Data.List.Basic
import Mathlib.Data.List.Infix

/-!
# Statement texts

A MySQL binlog carries what is not a row change as the text a client wrote. Four
scanners read it: what the statement means to the drain, the table a `TRUNCATE`
names, the tables a DDL removes rows of without row events, and the tracked table
a DML statement names. Each one looks at the text from its start, word by word.
-/

namespace Apitap

/-- What `char::is_alphanumeric` says of the characters beyond ASCII. -/
class Unicode where
  alphanumeric : Char → Bool

namespace Mysource

/-- A statement's text. -/
abbrev Text := List Char

def isWhitespace (c : Char) : Bool :=
  let n := c.toNat
  decide (9 ≤ n ∧ n ≤ 13 ∨ n = 32 ∨ n = 0x85 ∨ n = 0xA0 ∨ n = 0x1680 ∨ 0x2000 ≤ n ∧ n ≤ 0x200A ∨
    n = 0x2028 ∨ n = 0x2029 ∨ n = 0x202F ∨ n = 0x205F ∨ n = 0x3000)

def isAlphanumeric [Unicode] (c : Char) : Bool :=
  if c.toNat < 128 then c.isAlphanum else Unicode.alphanumeric c

/-- `to_ascii_lowercase`. -/
def lower (s : Text) : Text := s.map Char.toLower

def trimStart (s : Text) : Text := s.dropWhile isWhitespace

/-- A name without its quotes. -/
def unquote (s : Text) : Text := s.filter fun c => c ≠ '`' ∧ c ≠ '"'

/-- A name under the session's default database, unless it names its own. -/
def qualify (db n : Text) : Text := if '.' ∈ n then n else db ++ '.' :: n

/-- The maximal runs of characters of a kind, in order. -/
def wordsBy (p : Char → Bool) (s : Text) : List Text :=
  (s.splitOnP fun c => !p c).filter (· ≠ [])

/-- What follows a word at the start of the text; the next character must not go on
with it. -/
def startsWithWord [Unicode] (s : Text) (w : String) : Bool :=
  decide (lower (s.take w.toList.length) = w.toList) &&
    (s.drop w.toList.length).head?.all fun c => !isAlphanumeric c && c ≠ '_'

/-- Read a word and the space after it, if the text starts with that word. -/
def word? [Unicode] (s : Text) (w : String) : Option Text :=
  if startsWithWord s w then some (trimStart (s.drop w.toList.length)) else none

/-- Read past an optional word. -/
def skipWord [Unicode] (s : Text) (w : String) : Text := (word? s w).getD s

/-- Read past an optional `IF EXISTS`. -/
def skipIfExists [Unicode] (s : Text) : Text :=
  match word? s "if" with
  | some s => skipWord s "exists"
  | none => s

/-- The text after the first `*/`. -/
def afterClose : Text → Option Text
  | '*' :: '/' :: rest => some rest
  | _ :: rest => afterClose rest
  | [] => none

/-- The text after the first line feed. -/
def afterLine : Text → Option Text
  | [] => none
  | c :: rest => if c = '\n' then some rest else afterLine rest

/-- Skip the whitespace and comments before a statement. An unterminated comment
leaves nothing. Every comment is shorter than the text, so the text's length is
turns enough. -/
def stripNoise : Nat → Text → Text
  | 0, _ => []
  | turns + 1, s =>
      match trimStart s with
      | '/' :: '*' :: rest => ((afterClose rest).map (stripNoise turns)).getD []
      | '-' :: '-' :: rest => ((afterLine rest).map (stripNoise turns)).getD []
      | '#' :: rest => ((afterLine rest).map (stripNoise turns)).getD []
      | t => t

def stripLeadingNoise (s : Text) : Text := stripNoise (s.length + 1) s

/-- What a QUERY event's statement means to the drain. -/
inductive QueryVerb where
  | begin
  | commit
  | ddl
  /-- `ROLLBACK`, the whole transaction. -/
  | rollback
  /-- `ROLLBACK TO [SAVEPOINT] x`. -/
  | rollbackTo
  /-- A row change written as statement text. -/
  | dml
  | other
deriving DecidableEq, Repr

def isDdl [Unicode] (s : Text) : Bool :=
  ["alter", "create", "drop", "rename", "truncate"].any (startsWithWord (trimStart s))

def queryVerb [Unicode] (head : Text) : QueryVerb :=
  let head := stripLeadingNoise head
  if startsWithWord head "begin" then .begin
  else if startsWithWord head "commit" then .commit
  else if startsWithWord head "rollback" then
    let rest := trimStart (head.drop "rollback".toList.length)
    let rest := ((rest.dropPrefix? "work".toList).map trimStart).getD rest
    if startsWithWord rest "to" then .rollbackTo else .rollback
  else if ["insert", "update", "delete", "replace", "load"].any (startsWithWord head) then .dml
  else if isDdl head then .ddl
  else .other

/-- The table a `TRUNCATE` names; none when it cannot be read. -/
def truncateTarget [Unicode] (sql db : Text) : Option Text :=
  let s := trimStart sql
  if lower (s.take 8) = "truncate".toList then
    let rest := trimStart (s.drop 8)
    let rest := if startsWithWord rest "table" then trimStart (rest.drop 5) else rest
    let name := unquote (rest.takeWhile fun c => !isWhitespace c && c ≠ ';')
    if name = [] then none else some (qualify db name)
  else none

/-- One table name, up to a separator, and what follows it. -/
def tableName (db s : Text) : Option Text × Text :=
  let stop c := isWhitespace c || c ∈ [',', ';', '(']
  let n := unquote (s.takeWhile fun c => !stop c)
  (if n = [] then none else some (qualify db n), trimStart (s.dropWhile fun c => !stop c))

/-- The names of a comma-separated list. Each comma shortens the text, so its
length is turns enough. -/
def tableNames (db : Text) : Nat → Text → List Text
  | 0, _ => []
  | turns + 1, s =>
      match tableName db s with
      | (none, _) => []
      | (some t, ',' :: rest) => t :: tableNames db turns (trimStart rest)
      | (some t, _) => [t]

/-- The names of a rename list, `a TO b [, ..]`, in order. -/
def renames [Unicode] (db : Text) : Nat → Text → List Text
  | 0, _ => []
  | turns + 1, s =>
      match tableName db s with
      | (none, _) => []
      | (some source, s) =>
          match (word? s "to").map (tableName db) with
          | some (some target, ',' :: rest) =>
              source :: target :: renames db turns (trimStart rest)
          | some (some target, _) => [source, target]
          | _ => []

/-- Read past any `ONLINE` and `IGNORE`. -/
def skipAlterWords [Unicode] : Nat → Text → Text
  | 0, s => s
  | turns + 1, s =>
      match (word? s "online").or (word? s "ignore") with
      | some s => skipAlterWords turns s
      | none => s

/-- What two neighbouring words of an `ALTER TABLE` do to its rows. -/
def alterEffect (w : String × String) : Option String :=
  match w with
  | ("drop", "partition") => some "DROP PARTITION"
  | ("truncate", "partition") => some "TRUNCATE PARTITION"
  | ("convert", "partition") => some "CONVERT PARTITION"
  | ("convert", "table") => some "CONVERT TABLE"
  | ("discard", "tablespace") => some "DISCARD TABLESPACE"
  | ("import", "tablespace") => some "IMPORT TABLESPACE"
  | ("exchange", "partition") => some "EXCHANGE PARTITION"
  | ("rename", w) => if w ∈ ["column", "index", "key"] then none else some "RENAME TABLE"
  | _ => none

/-- The table after `WITH TABLE`. -/
def exchanged (db : Text) : List Text → Option Text
  | a :: b :: c :: rest =>
      if lower a = "with".toList ∧ lower b = "table".toList then (tableName db c).1
      else exchanged db (b :: c :: rest)
  | _ => none

/-- The tables an `ALTER TABLE` of the table `t` removes or swaps rows of. -/
def alterDdl (db t s : Text) : List (Text × String) :=
  let words := (wordsBy (fun c => c.isAlphanum || c = '_') (lower s)).map String.ofList
  match (words.zip words.tail).findSome? alterEffect with
  | none => []
  | some "EXCHANGE PARTITION" =>
      (t, "EXCHANGE PARTITION") ::
        ((exchanged db (wordsBy (fun c => !isWhitespace c) s)).map (·, "EXCHANGE PARTITION")).toList
  | some what => [(t, what)]

/-- The tables a DDL statement removes or swaps rows of without row events, each with
what it does to it. `db.*` stands for every table of a database. -/
def dataDdl [Unicode] (sql db : Text) : List (Text × String) :=
  let s := stripLeadingNoise sql
  let turns := sql.length + 1
  match word? s "drop", word? s "rename", word? s "create", word? s "alter" with
  | some s, _, _, _ =>
      match (word? s "database").or (word? s "schema") with
      | some s =>
          let d := unquote ((skipIfExists s).takeWhile fun c => !(isWhitespace c || c = ';'))
          if d = [] then [] else [(d ++ ".*".toList, "DROP DATABASE")]
      | none =>
          if (word? s "temporary").isSome then []
          else match word? s "table" with
            | none => []
            | some s => (tableNames db turns (skipIfExists s)).map (·, "DROP TABLE")
  | none, some s, _, _ =>
      match (word? s "table").or (word? s "tables") with
      | none => []
      | some s => (renames db turns s).map (·, "RENAME TABLE")
  | none, none, some s, _ =>
      match ((word? s "or").bind (word? · "replace")).bind fun s =>
          word? (skipWord s "temporary") "table" with
      | none => []
      | some s => ((tableName db s).1.map (·, "CREATE OR REPLACE TABLE")).toList
  | none, none, none, some s =>
      match word? (skipAlterWords turns s) "table" with
      | none => []
      | some s =>
          match tableName db (skipIfExists s) with
          | (none, _) => []
          | (some t, s) => alterDdl db t s
  | none, none, none, none => []

/-- A tracked table's database and bare name. -/
def splitOnce (q : Text) : Option (Text × Text) :=
  if '.' ∈ q then some (q.takeWhile (· ≠ '.'), (q.dropWhile (· ≠ '.')).drop 1) else none

/-- The tracked table a DML statement names, if any: its bare name as a word anywhere in
the text, its database the default one or anywhere in the text. -/
def namesTracked (sql db : Text) (tracked : List String) : Option String :=
  let low := lower sql
  let words := wordsBy (fun c => c.isAlphanum || c = '_' || c = '$') low
  tracked.find? fun q =>
    (splitOnce q.toList).any fun n =>
      decide (lower n.2 ∈ words) && decide (lower n.1 = lower db ∨ lower n.1 <:+: low)

/-- The tracked table a DDL's target is: by name, or by database. -/
def hit (tracked : List String) (t : Text) : Option String :=
  match t.reverse with
  | '*' :: '.' :: d =>
      tracked.find? fun q => (splitOnce q.toList).any fun n => decide (lower n.1 = lower d.reverse)
  | _ => tracked.find? fun q => decide (lower q.toList = lower t)

end Mysource

end Apitap
