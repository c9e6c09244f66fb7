import Apitap.Foundation.Scan
import Apitap.Wire.PgRender

/-!
# Decoding a pgoutput message

One message from its bytes. A change inside a streamed transaction has the transaction's
number behind its tag. A tuple's cells are ranges into the message; where a cell is binary
and not to be kept so, the row is built again in a frame of its own with that cell rendered.
-/

namespace Apitap.Pgo

open Foundation
open Copy (be fromBe)

abbrev Oids := UInt32 → Option (List UInt32)

structure RelationCol where
  key : Bool
  name : String
  typeOid : UInt32
  typeMod : Int32
deriving DecidableEq

structure Relation where
  relId : UInt32
  «namespace» : String
  name : String
  replicaIdentity : UInt8
  cols : List RelationCol
deriving DecidableEq

structure OldImage (τ : Type) where
  full : Bool
  tuple : τ

/-- A decoded message, by how a row is held. -/
inductive PgoMessage (τ : Type) where
  | «begin» (finalLsn : UInt64) (commitTsUs : Int64) (xid : UInt32)
  | commit (commitLsn endLsn : UInt64) (commitTsUs : Int64)
  | origin
  | relation (r : Relation)
  | type
  | insert (relId : UInt32) (new : τ)
  | update (relId : UInt32) (old : Option (OldImage τ)) (new : τ)
  | delete (relId : UInt32) (old : OldImage τ)
  | truncate (relIds : List UInt32) (cascade restartIdentity : Bool)
  | streamStart (xid : UInt32)
  | streamStop
  | streamCommit (xid : UInt32) (endLsn : UInt64)
  | streamAbort (xid subXid : UInt32)

def OldImage.map {τ σ : Type} (f : τ → σ) (o : OldImage τ) : OldImage σ := ⟨o.full, f o.tuple⟩

def PgoMessage.map {τ σ : Type} (f : τ → σ) : PgoMessage τ → PgoMessage σ
  | .begin finalLsn ts xid => .begin finalLsn ts xid
  | .commit commitLsn endLsn ts => .commit commitLsn endLsn ts
  | .origin => .origin
  | .relation r => .relation r
  | .type => .type
  | .insert relId new => .insert relId (f new)
  | .update relId old new => .update relId (old.map (·.map f)) (f new)
  | .delete relId old => .delete relId (old.map f)
  | .truncate relIds cascade restart => .truncate relIds cascade restart
  | .streamStart xid => .streamStart xid
  | .streamStop => .streamStop
  | .streamCommit xid endLsn => .streamCommit xid endLsn
  | .streamAbort xid subXid => .streamAbort xid subXid

/-! ## The reader -/

abbrev Read (α : Type) := Scan (Stop Error) α

def refused (what : String) : Stop Error := .err (.transfer ("pgoutput: " ++ what))

def short : Stop Error := refused "truncated message"

/-- A byte as Rust shows it as a character. -/
def debugChar (b : UInt8) : String :=
  let hex := String.ofList ((Nat.toDigits 16 b.toNat))
  let inner :=
    if b = 0 then "\\0"
    else if b = 9 then "\\t"
    else if b = 10 then "\\n"
    else if b = 13 then "\\r"
    else if b = 39 then "\\'"
    else if b = 92 then "\\\\"
    else if b < 32 ∨ (127 ≤ b ∧ b ≤ 160) ∨ b = 173 then "\\u\x7b" ++ hex ++ "\x7d"
    else String.ofList [Char.ofNat b.toNat]
  "'" ++ inner ++ "'"

def u8 : Read UInt8 := fun src pos =>
  match src[pos]? with
  | some b => .ok (b, pos + 1)
  | none => .error short

def take (n : Nat) : Read Bytes := Scan.take short n

def u16 : Read Nat := (take 2).andThen fun bs => .ret (fromBe bs)
def u32 : Read UInt32 := (take 4).andThen fun bs => .ret (UInt32.ofNat (fromBe bs))
def i32 : Read Int32 := (take 4).andThen fun bs => .ret ⟨UInt32.ofNat (fromBe bs)⟩
def u64 : Read UInt64 := (take 8).andThen fun bs => .ret (UInt64.ofNat (fromBe bs))
def i64 : Read Int64 := (take 8).andThen fun bs => .ret ⟨UInt64.ofNat (fromBe bs)⟩

/-- A name up to its zero byte. -/
def cstr : Read String := fun src pos =>
  if pos ≤ src.length then
    let rest := src.drop pos
    let name := rest.takeWhile (· ≠ 0)
    if name.length < rest.length then
      match String.fromUTF8? ⟨name.toArray⟩ with
      | some s => .ok (s, pos + (name.length + 1))
      | none => .error (refused "non-UTF-8 identifier")
    else .error (refused "unterminated string")
  else .error .panic

/-! ## Tuples -/

/-- The range of the value behind its length. -/
def range : Read CellR :=
  u32.andThen fun len =>
    (Scan.place short len.toNat).andThen fun start => .ret (.text (start % 2 ^ 32) len.toNat)

/-- One cell, and whether it is binary. -/
def cell : Read (CellR × Bool) :=
  u8.andThen fun kind =>
    if kind = 110 then .ret (.null, false)
    else if kind = 117 then .ret (.unchangedToast, false)
    else if kind = 116 then range.andThen fun c => .ret (c, false)
    else if kind = 98 then range.andThen fun c => .ret (c, true)
    else .fail (refused ("unexpected tuple-cell kind " ++ debugChar kind))

/-- The cells from column `i` on, and the columns of the binary ones. -/
def cells : Nat → Nat → Read (List CellR × List Nat)
  | _, 0 => .ret ([], [])
  | i, n + 1 =>
      cell.andThen fun c =>
        (cells (i + 1) n).andThen fun rest =>
          .ret (c.1 :: rest.1, if c.2 then i :: rest.2 else rest.2)

/-- A slice by its ends. -/
def slice (src : Bytes) (start fin : Nat) : Option Bytes :=
  if start ≤ fin ∧ fin ≤ src.length then some ((src.drop start).take (fin - start)) else none

/-- A value renderer by type. -/
abbrev Render := Nat → Bytes → Except (Stop Error) Bytes

/-- The cells from column `i` on laid into a frame, the binary ones rendered. -/
def rebuild (render : Render) (src : Bytes) (oids : List UInt32) :
    Nat → List Nat → List CellR → Bytes → Except (Stop Error) (Bytes × List CellR)
  | _, _, [], frame => .ok (frame, [])
  | i, binIdx, .null :: cs, frame =>
      (rebuild render src oids (i + 1) binIdx cs frame).map fun r => (r.1, .null :: r.2)
  | i, binIdx, .unchangedToast :: cs, frame =>
      (rebuild render src oids (i + 1) binIdx cs frame).map fun r => (r.1, .unchangedToast :: r.2)
  | i, binIdx, .text o l :: cs, frame =>
      let start := frame.length % 2 ^ 32
      (Stop.orPanic (checkedNat 32 (o + l))).bind fun fin =>
        (Stop.orPanic (slice src o fin)).bind fun raw =>
          let binary := binIdx.head? = some i
          (if binary then
            (Stop.orPanic oids[i]?).bind fun oid => (render oid.toNat raw).map (frame ++ ·)
          else .ok (frame ++ raw)).bind fun grown =>
            (Stop.orPanic (if start ≤ grown.length % 2 ^ 32 then
              some (grown.length % 2 ^ 32 - start) else none)).bind fun len =>
              (rebuild render src oids (i + 1) (if binary then binIdx.tail else binIdx) cs
                grown).map fun r => (r.1, .text start len :: r.2)

def neverSeen : Stop Error :=
  refused ("binary tuple for a relation whose Relation message was never seen — " ++
    "protocol desync?")

def declared (n columns : Nat) : Stop Error :=
  refused s!"binary tuple has {n} cells but the relation declared {columns} columns"

def tuple (render : Render) (oids : Option (List UInt32)) (keepBinary : Bool) : Read Tuple :=
  u16.andThen fun n =>
    (cells 0 n).andThen fun read =>
      Scan.source.andThen fun src =>
        if read.2 = [] ∨ keepBinary then .ret ⟨src, read.1⟩
        else
          match oids with
          | none => .fail neverSeen
          | some oids =>
              if oids.length ≠ n then .fail (declared n oids.length)
              else .lift ((rebuild render src oids 0 read.2 read.1 []).map fun r => ⟨r.1, r.2⟩)

/-! ## Messages -/

def relationCol : Read RelationCol :=
  u8.andThen fun flags => cstr.andThen fun name => u32.andThen fun oid =>
    i32.andThen fun typeMod => .ret ⟨flags = 1, name, oid, typeMod⟩

def relation : Read Relation :=
  u32.andThen fun relId => cstr.andThen fun «namespace» => cstr.andThen fun name =>
    u8.andThen fun identity => u16.andThen fun ncols =>
      (Scan.times relationCol ncols).andThen fun cols =>
        .ret ⟨relId, «namespace», name, identity, cols⟩

/-- A tuple of another kind than the message has. -/
def mistaken (what wanted : String) (kind : UInt8) : Stop Error :=
  .err (.transfer ("pgoutput " ++ what ++ ": expected " ++ wanted ++ " tuple, got " ++
    debugChar kind))

/-- What follows a message's tag, and the transaction's number in a stream. -/
def message (render : Render) (relOids : Oids) (keepBinary : Bool) (tag : UInt8) :
    Read (PgoMessage Tuple) :=
  let row (relId : UInt32) : Read Tuple := tuple render (relOids relId) keepBinary
  if tag = 83 then u32.andThen fun xid => u8.andThen fun _ => .ret (.streamStart xid)
  else if tag = 69 then .ret .streamStop
  else if tag = 99 then
    u32.andThen fun xid => u8.andThen fun _ => u64.andThen fun _ => u64.andThen fun endLsn =>
      .ret (.streamCommit xid endLsn)
  else if tag = 65 then
    u32.andThen fun xid => u32.andThen fun subXid => .ret (.streamAbort xid subXid)
  else if tag = 66 then
    u64.andThen fun finalLsn => i64.andThen fun ts => u32.andThen fun xid =>
      .ret (.begin finalLsn ts xid)
  else if tag = 67 then
    u8.andThen fun _ => u64.andThen fun commitLsn => u64.andThen fun endLsn =>
      i64.andThen fun ts => .ret (.commit commitLsn endLsn ts)
  else if tag = 79 then .ret .origin
  else if tag = 89 then .ret .type
  else if tag = 82 then relation.andThen fun r => .ret (.relation r)
  else if tag = 73 then
    u32.andThen fun relId => u8.andThen fun kind =>
      if kind = 78 then (row relId).andThen fun new => .ret (.insert relId new)
      else .fail (mistaken "insert" "N" kind)
  else if tag = 85 then
    let newTuple (relId : UInt32) (old : Option (OldImage Tuple)) (kind : UInt8) :
        Read (PgoMessage Tuple) :=
      if kind = 78 then (row relId).andThen fun new => .ret (.update relId old new)
      else .fail (mistaken "update" "N" kind)
    u32.andThen fun relId => u8.andThen fun kind =>
      if kind = 75 ∨ kind = 79 then
        (row relId).andThen fun t => u8.andThen (newTuple relId (some ⟨kind = 79, t⟩))
      else newTuple relId none kind
  else if tag = 68 then
    u32.andThen fun relId => u8.andThen fun kind =>
      if kind = 75 ∨ kind = 79 then
        (row relId).andThen fun t => .ret (.delete relId ⟨kind = 79, t⟩)
      else .fail (mistaken "delete" "K/O" kind)
  else if tag = 84 then
    u32.andThen fun n => u8.andThen fun opts => (Scan.times u32 n.toNat).andThen fun relIds =>
      .ret (.truncate relIds (opts &&& 1 ≠ 0) (opts &&& 2 ≠ 0))
  else
    .fail (refused ("unknown message tag " ++ debugChar tag ++
      " — is the publication using proto_version 1?"))

/-! One equation a tag. -/

section tags

variable (render : Render) (relOids : Oids) (keepBinary : Bool)

theorem message_begin : message render relOids keepBinary 66 =
    u64.andThen fun finalLsn => i64.andThen fun ts => u32.andThen fun xid =>
      .ret (.begin finalLsn ts xid) := rfl

theorem message_commit : message render relOids keepBinary 67 =
    u8.andThen fun _ => u64.andThen fun commitLsn => u64.andThen fun endLsn =>
      i64.andThen fun ts => .ret (.commit commitLsn endLsn ts) := rfl

theorem message_origin : message render relOids keepBinary 79 = .ret .origin := rfl

theorem message_type : message render relOids keepBinary 89 = .ret .type := rfl

theorem message_relation : message render relOids keepBinary 82 =
    relation.andThen fun r => .ret (.relation r) := rfl

theorem message_insert : message render relOids keepBinary 73 =
    u32.andThen fun relId => u8.andThen fun kind =>
      if kind = 78 then
        (tuple render (relOids relId) keepBinary).andThen fun new => .ret (.insert relId new)
      else .fail (mistaken "insert" "N" kind) := rfl

theorem message_update : message render relOids keepBinary 85 =
    u32.andThen fun relId => u8.andThen fun kind =>
      if kind = 75 ∨ kind = 79 then
        (tuple render (relOids relId) keepBinary).andThen fun old => u8.andThen fun next =>
          if next = 78 then
            (tuple render (relOids relId) keepBinary).andThen fun new =>
              .ret (.update relId (some ⟨kind = 79, old⟩) new)
          else .fail (mistaken "update" "N" next)
      else if kind = 78 then
        (tuple render (relOids relId) keepBinary).andThen fun new => .ret (.update relId none new)
      else .fail (mistaken "update" "N" kind) := rfl

theorem message_delete : message render relOids keepBinary 68 =
    u32.andThen fun relId => u8.andThen fun kind =>
      if kind = 75 ∨ kind = 79 then
        (tuple render (relOids relId) keepBinary).andThen fun old =>
          .ret (.delete relId ⟨kind = 79, old⟩)
      else .fail (mistaken "delete" "K/O" kind) := rfl

theorem message_truncate : message render relOids keepBinary 84 =
    u32.andThen fun n => u8.andThen fun opts => (Scan.times u32 n.toNat).andThen fun relIds =>
      .ret (.truncate relIds (opts &&& 1 ≠ 0) (opts &&& 2 ≠ 0)) := rfl

theorem message_streamStart : message render relOids keepBinary 83 =
    u32.andThen fun xid => u8.andThen fun _ => .ret (.streamStart xid) := rfl

theorem message_streamStop : message render relOids keepBinary 69 = .ret .streamStop := rfl

theorem message_streamCommit : message render relOids keepBinary 99 =
    u32.andThen fun xid => u8.andThen fun _ => u64.andThen fun _ => u64.andThen fun endLsn =>
      .ret (.streamCommit xid endLsn) := rfl

theorem message_streamAbort : message render relOids keepBinary 65 =
    u32.andThen fun xid => u32.andThen fun subXid => .ret (.streamAbort xid subXid) := rfl

end tags

/-- The tags whose messages name the subtransaction inside a stream. -/
def carriesXid (tag : UInt8) : Bool :=
  tag = 82 || tag = 89 || tag = 73 || tag = 85 || tag = 68 || tag = 84

def decodeScan (render : Render) (inStream : Bool) (relOids : Oids) (keepBinary : Bool) :
    Read (PgoMessage Tuple × Option UInt32) :=
  u8.andThen fun tag =>
    (if inStream ∧ carriesXid tag then u32.andThen fun xid => .ret (some xid)
    else .ret none).andThen fun changeXid =>
      (message render relOids keepBinary tag).andThen fun msg => .ret (msg, changeXid)

def decode (render : Render) (payload : Bytes) (inStream : Bool) (relOids : Oids)
    (keepBinary : Bool) : Except (Stop Error) (PgoMessage Tuple × Option UInt32) :=
  (decodeScan render inStream relOids keepBinary payload 0).map Prod.fst

end Apitap.Pgo
