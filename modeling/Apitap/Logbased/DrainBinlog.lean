import Apitap.Logbased.Mysource
import Apitap.Logbased.Statement
import Apitap.Logbased.Window

/-!
# One binlog drain

`drain_binlog` reads a replica session's events from the last window's end to a stop: a
transaction's row changes are buffered until one of its commit markers makes them real.
The session outlives a window: the table ids announced, the schemas fetched, and the
file the stream is in. What the loop reads off its clock, its signals and the control
pool is a `Moment` a turn.
-/

namespace Apitap

namespace Mysource

/-- A column as a TABLE_MAP describes it: its type byte and the type's metadata. -/
structure ColDef where
  kind : Nat
  info : Nat
deriving DecidableEq, Repr

/-- The event column's real type: a string's is folded into its metadata. -/
def eventRealType (c : ColDef) : Nat :=
  if c.kind = 0xFE then
    let rt := c.info >>> 8
    if rt &&& 0x30 ≠ 0x30 then rt ||| 0x30 else rt
  else c.kind

/-- A table's columns as the catalog has them now, each with the type byte an event
should carry for it, where there is one. -/
structure TableSchema where
  names : List String
  kinds : List (Option (Nat × Option Nat))
  nodup : names.Nodup
deriving Repr

/-- A decoded binlog event. -/
inductive BinlogEvent where
  | rotate (name : Bytes)
  | formatDescription
  | transactionPayload
  | tableMap (tableId : Nat) (db table : String) (cols : List ColDef)
  | rows (tableId : Nat) (changes : List TxOp)
  | query (db sql : Text)
  | xid
  /-- Any other event, by its type code. -/
  | coded (code : Nat)
deriving DecidableEq, Repr

/-- An event behind its header, which carries its end in the file in 32 bits. -/
structure Event where
  logPos : Nat
  body : BinlogEvent
deriving DecidableEq, Repr

/-- Codes that carry no row changes: heartbeats, GTID marks, and the like. -/
def skippable (code : Nat) : Bool :=
  code ∈ [27, 41, 33, 34, 35, 42, 3, 5, 9, 1, 13, 14, 28, 29, 36, 37, 160, 161, 163, 164]

/-- MariaDB opens a transaction with a GTID event. -/
def isTxStart (code : Nat) : Bool := code = 162

def unhandled (code : Nat) : Error :=
  let hint :=
    if code = 39 then "partial JSON update rows (MySQL 8) — set binlog_row_value_options=''"
    else if code = 26 then "INCIDENT: the master reports it LOST events — this stream has a hole"
    else if 165 ≤ code ∧ code ≤ 171 then
      "compressed query/rows events (MariaDB) — set log_bin_compress=OFF"
    else if code ∈ [6, 8, 10, 11, 12, 17, 18] then
      "LOAD DATA statement-based events — set binlog_format=ROW"
    else if 20 ≤ code ∧ code ≤ 22 then "pre-GA rows events from a pre-5.1.16 master"
    else if code = 38 then "XA PREPARE — XA transactions are not decoded yet"
    else "unknown event type"
  .transfer
    (s!"mysql binlog: log_based: binlog event type {code} not handled ({hint}). Refusing rather " ++
      "than skipping it — a skipped event is silent data loss. Please report " ++
      "this event code.")

/-- A table this run follows. -/
def isTracked (tracked : List (String × List String)) (q : String) : Bool :=
  (tracked.lookup q).isSome

/-- Decode state that outlives one window. -/
structure MySession where
  /-- The tracked table a numeric table id stands for. -/
  maps : Nat → Option String
  schemas : String → Option TableSchema
  file : Bytes
  /-- The tables this run follows, each with its key columns. -/
  tracked : List (String × List String)
  layouts : String → Option Layout

/-- What one turn of the loop reads from outside the stream. -/
structure Moment where
  /-- The deadline passed, or a SIGTERM asked the run to wind down. -/
  stopping : Bool
  /-- The connection failed, or an event could not be read. -/
  fault : Option Error
  /-- The catalog's answer about a table. -/
  fetch : String → String → Except Error TableSchema

/-- What one drain call is given. -/
structure DrainCall where
  stopLine : Nat
  maxBufBytes : Nat
  /-- The most one transaction may buffer. -/
  txLimit : Nat

/-- The locals of a running drain, and its session. -/
structure Drain (β : Type) where
  sess : MySession
  bodies : Bodies β
  txBuf : List (String × TxOp)
  endMark : Nat
  bufBytes : Nat
  txBytes : Nat
  hitBudget : Bool

/-- The layout a window's rows of a table are in, from the catalog. -/
def layoutFromMysql (table : String) (sc : TableSchema) (keys : List String) :
    Except Error Layout :=
  let names := ", ".intercalate sc.names
  match h : keyPositions sc.names
      (fun k => .transfer
        (s!"log_based: {table}: key column '{k}' is not among the source's columns " ++
          s!"({names}) — the table's key changed since this run resolved it. Clear this " ++
          "table's apitap state on the destination and re-run to bootstrap it from its current " ++
          "schema.")) keys with
  | .error e => .error e
  | .ok keyIdx =>
      .ok
        { cols := sc.names
          oids := List.replicate sc.names.length 0
          keyCols := keys
          keyIdx := keyIdx
          cols_nodup := sc.nodup
          keyIdx_spec := keyPositions_spec h }

/-- The text of a file's name. -/
def fileText (file : Bytes) : String := (String.fromUTF8? ⟨file.toArray⟩).getD ""

namespace MySession

variable (sess : MySession)

/-- The session of a fresh dump. -/
def fresh (file : Bytes) (tracked : List (String × List String)) : MySession where
  maps _ := none
  schemas _ := none
  file := file
  tracked := tracked
  layouts _ := none

/-- A table's schema: cached, else from the catalog. -/
def schemaFor (fetch : String → String → Except Error TableSchema) (db table q : String) :
    Except Error (TableSchema × MySession) :=
  match sess.schemas q with
  | some sc => .ok (sc, sess)
  | none => (fetch db table).map fun sc =>
      (sc, { sess with schemas := Function.update sess.schemas q (some sc) })

/-- The session once it has a layout of a tracked table: cached, else from the schema. -/
def layoutFor (fetch : String → String → Except Error TableSchema) (q : String) :
    Except Error MySession :=
  match sess.layouts q with
  | some _ => .ok sess
  | none =>
      match splitOnce q.toList with
      | none => .error (.transfer s!"log_based: {q} is not db.table")
      | some (db, tb) => do
          let (sc, sess) ← sess.schemaFor fetch (String.ofList db) (String.ofList tb) q
          match sess.tracked.lookup q with
          | none => .error (.transfer s!"log_based: {q} is not tracked")
          | some keys =>
              let l ← layoutFromMysql q sc keys
              .ok { sess with layouts := Function.update sess.layouts q (some l) }

end MySession

/-- A byte as the refusals show it. -/
def hexByte (n : Nat) : String :=
  "0x" ++ (if n < 16 then "0" else "") ++ String.ofList (Nat.toDigits 16 n)

/-- The event and the catalog must describe the same shape of the table. -/
def sameShape (q : String) (sc : TableSchema) (cols : List ColDef) : Except Error Unit :=
  if sc.names.length ≠ cols.length then
    .error (.invalidInput
      (s!"log_based: {q} has {sc.names.length} columns in the source catalog but the binlog " ++
        s!"events in this window describe {cols.length} — the table's definition changed while " ++
        "these changes were being written, and column positions are the only way the two are " ++
        "matched. apitap will not guess which column is which. Recovery: clear this table's " ++
        "apitap state on the destination and re-run, which bootstraps it from the schema it has " ++
        "now. Re-running as-is replays the same events against the same catalog and stops here " ++
        "again."))
  else
    let differs (c : ColDef × Option (Nat × Option Nat)) : Option Nat :=
      c.2.bind fun want =>
        if want.1 ≠ c.1.kind ∨ want.2.any (· ≠ eventRealType c.1) then some want.1 else none
    match (cols.zip sc.kinds).zipIdx.findSome? fun c => (differs c.1).map (·, c) with
    | none => .ok ()
    | some (expected, (c, _), i) =>
        let name := sc.names[i]?.getD "?"
        .error (.invalidInput
          (s!"log_based: {q} column {i} ({name}) is type {hexByte expected} in the source " ++
            "catalog, but the binlog events in this window describe it as " ++
            s!"{hexByte c.kind} — the table was altered while these changes were being " ++
            "written, so the event and the catalog describe different shapes of it. Matching " ++
            "them by position across that gap is silent, wrong corruption; " ++
            "apitap refuses instead of guessing. " ++
            "Recovery: clear this table's apitap state on the destination and re-run, which " ++
            "bootstraps it from the schema it has now."))

/-- A TABLE_MAP: the id stands for the table of its latest map. -/
def MySession.tableMap (sess : MySession) (fetch : String → String → Except Error TableSchema)
    (tableId : Nat) (db table : String) (cols : List ColDef) : Except Error MySession :=
  let q := s!"{db}.{table}"
  if isTracked sess.tracked q then do
    let (sc, sess) ← sess.schemaFor fetch db table q
    sameShape q sc cols
    let sess ← sess.layoutFor fetch q
    .ok { sess with maps := Function.update sess.maps tableId (some q) }
  else .ok { sess with maps := Function.update sess.maps tableId none }

/-- What a DDL's statement truncates: a tracked table, another one, or a table that
cannot be read. -/
inductive Truncates where
  | nothing
  | table (q : String)
  | untracked
  | unreadable
deriving DecidableEq

def truncates [Unicode] (tracked : List (String × List String)) (db head : Text) : Truncates :=
  let stmt := stripLeadingNoise head
  if startsWithWord stmt "truncate" then
    match truncateTarget stmt db with
    | some t =>
        if isTracked tracked (String.ofList t) then .table (String.ofList t) else .untracked
    | none => .unreadable
  else .nothing

namespace Drain

variable {β W : Type} [WindowBody W] [DrainBody β W]

/-- The locals a drain starts with. -/
def start (sess : MySession) (startMark : Nat) : Drain β where
  sess := sess
  bodies := ∅
  txBuf := []
  endMark := startMark
  bufBytes := 0
  txBytes := 0
  hitBudget := false

/-- Land what is buffered. -/
def land (d : Drain β) (pos : Nat) : Except Error (Drain β) :=
  (drainTx d.sess.layouts pos d.txBuf d.bodies).map fun bodies =>
    { d with txBuf := [], bodies := bodies }

/-- A commit marker: the buffered changes become real, and the window may end there. -/
def commit (p : DrainCall) (d : Drain β) (pos : Nat) : Except Error (Drain β × Bool) :=
  (d.land pos).map fun d =>
    let d := { d with endMark := pos }
    if pos ≥ p.stopLine then (d, true)
    else if d.bufBytes ≥ p.maxBufBytes then ({ d with hitBudget := true }, true)
    else (d, false)

/-- A rows event: its changes are buffered, if its table id stands for a tracked table. -/
def rows (p : DrainCall) (d : Drain β) (tableId : Nat) (changes : List TxOp) :
    Except Error (Drain β) :=
  match d.sess.maps tableId with
  | none => .ok d
  | some q =>
      let n := (changes.map fun op => opBytes op.stream).sum
      let txBytes := (if d.txBuf.isEmpty then 0 else d.txBytes) + n
      if p.txLimit < txBytes then .error (txTooBig q txBytes p.txLimit)
      else .ok { d with
        bufBytes := d.bufBytes + n
        txBytes := txBytes
        txBuf := d.txBuf ++ changes.map (q, ·) }

section query

variable [Unicode]

/-- A DDL that removes a tracked table's rows without row events is refused. -/
def followable (d : Drain β) (logPos : Nat) (db head : Text) : Except Error Unit :=
  match (dataDdl head db).findSome? fun e =>
      (hit (d.sess.tracked.map Prod.fst) e.1).map (·, e.2) with
  | none => .ok ()
  | some (q, what) =>
      .error (.transfer
        (s!"binlog: {what} on the tracked table {q} ({String.ofList (head.take 120)}) at " ++
          s!"{fileText d.sess.file}:{logPos} removes or swaps rows without row events, so the " ++
          "destination cannot follow it and would keep rows the source no longer has. " ++
          s!"Re-bootstrap {q} (clear its _apitap_state row) to copy it fresh" ++
          if what = "RENAME TABLE" then
            ". An online schema change's cut-over (gh-ost, pt-online-schema-change) is such a " ++
              "rename: re-bootstrap after each one"
          else ""))

/-- A truncate is its own commit boundary. -/
def truncate (d : Drain β) (m : Moment) (pos : Nat) (db head : Text) : Except Error (Drain β) :=
  match truncates d.sess.tracked db head with
  | .nothing => .ok d
  | .untracked => .ok d
  | .table q => do
      let sess ← d.sess.layoutFor m.fetch q
      { d with sess := sess, txBuf := d.txBuf ++ [(q, TxOp.truncate)] }.land pos
  | .unreadable =>
      .error (.transfer
        ("binlog: a TRUNCATE was seen but its table could not be read from the statement: " ++
          s!"{repr (String.ofList head)}. Refusing rather than skipping it — a dropped TRUNCATE " ++
          "leaves the destination holding rows the source no longer has, silently. Please " ++
          "report the statement text."))

/-- A DDL: what is buffered lands first, under the layouts it was decoded with, every
cached layout goes, and a window that holds a body ends. -/
def ddl (p : DrainCall) (m : Moment) (d : Drain β) (logPos : Nat) (db head : Text) :
    Except Error (Drain β × Bool) := do
  d.followable logPos db head
  let pos := packPos d.sess.file logPos
  let d ← d.land pos
  let d := { d with
    sess := { d.sess with
      schemas := fun _ => none
      layouts := fun _ => none
      maps := fun _ => none } }
  let d ← d.truncate m pos db head
  .ok (if d.bodies.keys.isEmpty then (d, false)
    else ({ d with endMark := pos, hitBudget := decide (pos < p.stopLine) }, true))

/-- A QUERY event. -/
def query (p : DrainCall) (m : Moment) (d : Drain β) (logPos : Nat) (db sql : Text) :
    Except Error (Drain β × Bool) :=
  let head := trimStart sql
  match queryVerb head with
  | .begin | .rollback => .ok ({ d with txBuf := [] }, false)
  | .rollbackTo =>
      if d.txBuf.isEmpty then .ok (d, false)
      else .error (.transfer
        ("binlog: a transaction touching a tracked table rolled back to a savepoint " ++
          s!"({repr (String.ofList head)}) at {fileText d.sess.file}:{logPos} — the binlog does " ++
          "not say which of its rows the savepoint undid, so it cannot be replicated " ++
          "faithfully. Re-bootstrap the table (clear its _apitap_state row), and avoid ROLLBACK " ++
          "TO SAVEPOINT in transactions that mix non-transactional tables"))
  | .dml =>
      match namesTracked head db (d.sess.tracked.map Prod.fst) with
      | none => .ok (d, false)
      | some t => .error (.transfer
          (s!"binlog: a change to the tracked table {t} was written as statement text " ++
            s!"({String.ofList (head.take 120)}) at {fileText d.sess.file}:{logPos}, not as row " ++
            "events — a session ran with binlog_format=STATEMENT or MIXED. Its rows cannot be " ++
            "read from the binlog. Make every writer use ROW (SET GLOBAL binlog_format='ROW', " ++
            s!"and reconnect the sessions), then re-bootstrap {t} (clear its _apitap_state row)"))
  | .commit => d.commit p (packPos d.sess.file logPos)
  | .ddl => d.ddl p m logPos db head
  | .other => .ok (d, false)

end query

/-- A skippable event moves the end between transactions, forward only. -/
def skip (p : DrainCall) (d : Drain β) (logPos : Nat) : Drain β × Bool :=
  if 0 < logPos ∧ d.txBuf = [] then
    let d := { d with endMark := max d.endMark (packPos d.sess.file logPos) }
    (d, decide (d.endMark ≥ p.stopLine))
  else (d, false)

/-- One event; the flag says the drain stops after it. -/
def event [Unicode] (p : DrainCall) (m : Moment) (d : Drain β) (ev : Event) :
    Except Error (Drain β × Bool) :=
  match ev.body with
  | .rotate name =>
      let file := if name = [] then d.sess.file else name
      .ok ({ d with sess := { d.sess with file := file } }, false)
  | .formatDescription => .ok (d, false)
  | .transactionPayload => .error (.invalidInput
      ("log_based: compressed transaction payload — set " ++
        "binlog_transaction_compression=OFF"))
  | .tableMap tableId db table cols =>
      (d.sess.tableMap m.fetch tableId db table cols).map fun sess =>
        ({ d with sess := sess }, false)
  | .rows tableId changes => (d.rows p tableId changes).map (·, false)
  | .query db sql => d.query p m ev.logPos db sql
  | .xid => d.commit p (packPos d.sess.file ev.logPos)
  | .coded code =>
      if isTxStart code then .ok ({ d with txBuf := [] }, false)
      else if skippable code then .ok (d.skip p ev.logPos)
      else .error (unhandled code)

/-- One turn of the loop over the event that comes next, none at the dump's end; the
flags say whether the event was read, and whether the drain stops. -/
def turn [Unicode] (p : DrainCall) (m : Moment) (d : Drain β) (next : Option Event) :
    Except Error (Drain β × Bool × Bool) :=
  if m.stopping ∧ d.txBuf = [] then .ok (d, false, true)
  else match m.fault with
    | some e => .error e
    | none =>
        match next with
        | none => .ok (d, false, true)
        | some ev => (d.event p m ev).map fun r => (r.1, true, r.2)

/-- Each table's body, sealed under its name. -/
def sealBodies (d : Drain β) : Except Error (List (String × TableWindow W)) :=
  (d.bodies.entries.map fun b => (b.1, b.2)).mapM
    fun s => (DrainBody.sealBody s.2 s.1).map fun w => (s.1, w)

/-- The window a drain returns. -/
def outcome (d : Drain β) (startMark : Nat) : Except Error (DrainOutcome W) :=
  d.sealBodies.map fun bodies => ⟨bodies, ⟨startMark, d.endMark⟩, d.hitBudget, []⟩

end Drain

end Mysource

end Apitap
