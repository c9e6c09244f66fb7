import Apitap.Foundation.Radix
import Apitap.Guard.Naming

/-!
# Names as texts

What a run calls an object beside a destination table: the table's name, the run's token and
the suffix of the kind. Where this is longer than the destination allows, the table's name is
cut and the digest of the whole of it put behind. Classifying reads the token back off a name.
-/

namespace Apitap.Naming

open Guard (Artifact LandKind)
open Foundation

abbrev Text := List Char

/-- The bytes of a text. -/
def size (t : Text) : Nat := (t.map Char.utf8Size).sum

def suffix : Artifact → Text
  | .staging => "__apitap_staging".toList
  | .old => "__apitap_old".toList
  | .new => "__apitap_new".toList
  | .changelogTmp => "__apitap_cl".toList
  | .cdcDelete => "__apitap_cdc_del".toList
  | .cdcStaging => "__apitap_cdc".toList
  | .cdcStaging1 => "__apitap_cdc1".toList
  | .cdcStaging2 => "__apitap_cdc2".toList
  | .cdcStaging3 => "__apitap_cdc3".toList
  | .current => "__current".toList
  | .lock => "__apitap_lock".toList

def letter : LandKind → Char
  | .swap => 'r'
  | .incremental => 'a'
  | .cdc => 'l'

def fromLetter : Char → Option LandKind
  | 'r' => some .swap
  | 'a' => some .incremental
  | 'l' => some .cdc
  | _ => none

/-- MD5 in hexadecimal digits. -/
structure Digest where
  hex : Text → Text
  length : ∀ t, (hex t).length = 32
  ascii : ∀ t, ∀ c ∈ hex t, c.toNat < 128

/-- Digits of a digest that stand for a text that was cut. -/
def hashLen : Nat := 8

/-- The width of a token, its leading `_` included. -/
def runTokenLen : Nat := 16

/-- As many characters as have room, behind `head`. -/
def cut (room : Nat) (head : Text) : Text → Text
  | [] => head
  | c :: cs => if size head + c.utf8Size > room then head else cut room (head ++ [c]) cs

/-- `<bare><suffix>` within the limit. -/
def artifactIdent (D : Digest) (bare : Text) (artifact : Artifact) (limit : Nat) : Text :=
  if size bare + size (suffix artifact) ≤ limit then bare ++ suffix artifact
  else
    let room := limit - (size (suffix artifact) + hashLen + 1)
    let h := D.hex (bare ++ suffix artifact)
    cut room [] bare ++ '_' :: h.take hashLen ++ suffix artifact

/-- The head and the suffix of every name of a table and a kind. -/
def artifactMatch (D : Digest) (bare : Text) (artifact : Artifact) (limit : Nat) : Text × Text :=
  let room := limit - (size (suffix artifact) + runTokenLen)
  if size bare ≤ room then (bare, suffix artifact)
  else
    let keep := room - (hashLen + 1)
    let h := D.hex (bare ++ suffix artifact)
    (cut keep [] bare ++ '_' :: h.take hashLen, suffix artifact)

/-- `<head><token><suffix>` within the limit. -/
def artifactIdentTok (D : Digest) (bare : Text) (artifact : Artifact) (limit : Nat)
    (token : Text) : Text :=
  let (head, suffix) := artifactMatch D bare artifact limit
  head ++ token ++ suffix

/-- A digit in base 36. -/
def digit36 (d : Nat) : Char := Char.ofNat (if d < 10 then 48 + d else 87 + d)

/-- The last digits of a number, as many as `width`. -/
def base36 (n width : Nat) : Text := (Radix.digits 36 width n).map digit36

structure RunId where
  token : Text
  /-- The token of the run this one was spawned inside. -/
  parent : Option Text

namespace RunId

def mintToken (kind : LandKind) (secs src nonce : Nat) : Text :=
  '_' :: (base36 secs 7 ++ letter kind :: (base36 src 3 ++ base36 nonce 4))

def isSelf (run : RunId) (token : Text) : Bool := run.token = token

def isParent (run : RunId) (token : Text) : Bool := run.parent = some token

end RunId

/-- What a run can read off a peer's name. -/
structure PeerRun where
  startedUnix : Nat
  kind : LandKind
  sourceHash : Text
  token : Text
deriving DecidableEq

/-- `str::strip_suffix`. -/
def stripSuffix (t suffix : Text) : Option Text :=
  if suffix.isSuffixOf t then some (t.take (t.length - suffix.length)) else none

/-- The text from a byte on, where a character starts. -/
def fromByte : Nat → Text → Option Text
  | 0, t => some t
  | _ + 1, [] => none
  | n + 1, c :: cs => if c.utf8Size ≤ n + 1 then fromByte (n + 1 - c.utf8Size) cs else none

/-- `char::to_digit(36)`. -/
def toDigit36 (c : Char) : Option Nat :=
  let n := c.toNat
  if 48 ≤ n ∧ n ≤ 57 then some (n - 48)
  else if 97 ≤ n ∧ n ≤ 122 then some (n - 87)
  else if 65 ≤ n ∧ n ≤ 90 then some (n - 55)
  else none

/-- `u64::from_str_radix`. A plus sign may stand first. -/
def parseU64 (t : Text) : Option Nat :=
  let ds := if t.head? = some '+' then t.tail else t
  if ds = [] then none
  else (ds.mapM toDigit36).bind fun ds =>
    if Radix.value 36 ds < 2 ^ 64 then some (Radix.value 36 ds) else none

/-- Read a token out of a name that carries one. -/
def parsePeer (name : Text) (artifact : Artifact) : Option PeerRun := do
  let head ← stripSuffix name (suffix artifact)
  if size head < runTokenLen then none
  else
    let tok ← fromByte (size head - runTokenLen) head
    if ¬ tok.all fun c => c.toNat < 128 then none
    else if tok.head? ≠ some '_' then none
    else
      let started ← parseU64 ((tok.drop 1).take 7)
      let kind ← tok[8]?.bind fromLetter
      some ⟨started, kind, (tok.drop 9).take 3, tok⟩

/-- What a name found next to a destination table means to this run. -/
inductive Found where
  | foreign
  | mine
  | parent
  | legacy
  | live (peer : PeerRun)
deriving DecidableEq

def classify (D : Digest) (name bare : Text) (artifact : Artifact) (limit : Nat) (mine : RunId) :
    Found :=
  let (head, suffix) := artifactMatch D bare artifact limit
  if name = artifactIdent D bare artifact limit then .legacy
  else if size name ≠ size head + runTokenLen + size suffix ∨ ¬ head.isPrefixOf name ∨
      ¬ suffix.isSuffixOf name then .foreign
  else match parsePeer name artifact with
    | none => .foreign
    | some peer =>
        if mine.isSelf peer.token then .mine
        else if mine.isParent peer.token then .parent
        else .live peer

end Apitap.Naming
