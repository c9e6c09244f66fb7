import Apitap.Logbased.Changelog

/-!
# One batch drain

`drain` reads the replication stream from the start watermark to a stop: a
transaction's rows are buffered until its commit makes them real, and only then
land in their table's body. The session outlives a window: the relation
registry, the streamed transactions still open on the source, and a committed
transaction the last window stopped short of.

A stream is the list of events still to be read. What a drain reads off its
clock, its signals and the apply side is a `Moment` per turn of the loop. The
two vectors of bodies, of which a run fills its own lane's, are one vector of a
body type.
-/

namespace Apitap

/-- The old image of an update or delete: full (`O`) or the key alone (`K`). -/
structure OldImage where
  full : Bool
  tuple : Tuple
deriving DecidableEq, Repr

inductive PgoMessage where
  | begin
  | commit (endLsn : Nat)
  | origin
  | relation (r : Relation)
  | type
  | insert (relId : Nat) (new : Tuple)
  | update (relId : Nat) (old : Option OldImage) (new : Tuple)
  | delete (relId : Nat) (old : OldImage)
  | truncate (relIds : List Nat)
  /-- A block of an in-progress transaction opens. -/
  | streamStart (xid : Nat)
  | streamStop
  | streamCommit (xid endLsn : Nat)
  | streamAbort (xid subXid : Nat)
deriving DecidableEq, Repr

inductive WalEvent where
  /-- A message and, inside a stream block, the (sub)transaction it names. -/
  | xlogData (msg : PgoMessage) (changeXid : Option Nat)
  | keepalive (walEnd : Nat) (replyRequested : Bool)
deriving DecidableEq, Repr

/-- The body a lane fills for one table while it drains. -/
class DrainBody (β : Type) (W : outParam Type) [WindowBody W] where
  new : Layout → β
  land : β → Nat → StreamOp → Except Error β
  sealBody : β → String → Except Error (TableWindow W)

instance : DrainBody Collapser Collapsed where
  new := Collapser.new
  land := Collapser.land
  sealBody := Collapser.seal

instance : DrainBody Changes Changes where
  new := Changes.new
  land c pos op := .ok (c.land pos op)
  sealBody := Changes.seal

def DrainBody.landAll {β W : Type} [WindowBody W] [DrainBody β W] (b : β) :
    List (Nat × StreamOp) → Except Error β
  | [] => .ok b
  | (pos, op) :: ops => (land b pos op).bind (landAll · ops)

theorem DrainBody.landAll_append {β W : Type} [WindowBody W] [DrainBody β W] (b : β)
    (ops ops' : List (Nat × StreamOp)) :
    DrainBody.landAll b (ops ++ ops') = (DrainBody.landAll b ops).bind
      (DrainBody.landAll · ops') := by
  induction ops generalizing b with
  | nil => rfl
  | cons op ops ih =>
      rw [List.cons_append, DrainBody.landAll, DrainBody.landAll]
      cases DrainBody.land b op.1 op.2 with
      | error e => rfl
      | ok b => exact ih b

/-- On the replica lane a body lands as the collapser does. -/
theorem DrainBody.landAll_collapser (c : Collapser) (ops : List (Nat × StreamOp)) :
    DrainBody.landAll c ops = c.landAll ops := by
  induction ops generalizing c with
  | nil => rfl
  | cons op ops ih =>
      rw [DrainBody.landAll, Collapser.landAll]
      change (c.land op.1 op.2).bind _ = _
      cases c.land op.1 op.2 with
      | error e => rfl
      | ok c' => exact ih c'

structure WindowId where
  start : Nat
  «end» : Nat
deriving DecidableEq, Repr

structure RelState where
  table : String
  tracked : Bool
deriving DecidableEq, Repr

/-- One transaction's row ops in WAL order, each with its relation slot. -/
abbrev TxOps := List (Nat × StreamOp)

/-- Decode state that outlives one window. -/
structure DrainSession where
  rels : Nat → Option Nat
  slotByName : String → Option Nat
  slots : List RelState
  /-- The last (oid, slot) resolved. -/
  lastRel : Option (Nat × Nat)
  layouts : String → Option Layout
  /-- A committed transaction the previous window did not take, and its end. -/
  carry : Option (TxOps × Nat)
  /-- Streamed transactions in flight, by top-level xid; each op is tagged with
  the (sub)transaction that made it. -/
  streams : AList fun _ : Nat => List (Nat × StreamOp × Nat)
  streamBytes : Nat
  /-- Each tracked table's oid when the run began, and its destination. -/
  expected : String → Option (Nat × String)

namespace DrainSession

def expecting (expected : String → Option (Nat × String)) : DrainSession where
  rels _ := none
  slotByName _ := none
  slots := []
  lastRel := none
  layouts _ := none
  carry := none
  streams := ∅
  streamBytes := 0
  expected := expected

def tableOf (sess : DrainSession) (slot : Nat) : Option String :=
  sess.slots[slot]?.map RelState.table

/-- Map an oid to its slot, and forget any other oid the slot had. -/
def registerRel (sess : DrainSession) (relId slot : Nat) : DrainSession :=
  { sess with
    rels := fun o =>
      if o = relId then some slot
      else if sess.rels o = some slot then none
      else sess.rels o }

/-- The slot of a table name, and whether the table is tracked now. -/
def relSlot (sess : DrainSession) (table : String) (tracked : Bool) :
    Except Error (Nat × DrainSession) :=
  match sess.slotByName table with
  | some s => .ok (s, { sess with slots := sess.slots.modify s ({ · with tracked := tracked }) })
  | none =>
      if sess.slots.length ≤ 65535 then
        .ok (sess.slots.length,
          { sess with
            slotByName := Function.update sess.slotByName table (some sess.slots.length)
            slots := sess.slots ++ [⟨table, tracked⟩] })
      else
        .error (.transfer "log_based: more than 65535 distinct tables in one session")

/-- Resolve a row event's relation to its slot; an untracked table has none. -/
def tracked (sess : DrainSession) (relId : Nat) :
    Except Error (Option Nat × DrainSession) :=
  let cached := sess.lastRel.bind fun last => if last.1 = relId then some last.2 else none
  match cached.or (sess.rels relId) with
  | none => .error (.transfer
      (s!"log_based: row event for unknown relation {relId} — pgoutput " ++
        "must send Relation first; protocol desync?"))
  | some slot =>
      .ok (if (sess.slots[slot]?.map RelState.tracked).getD false then some slot else none,
        { sess with lastRel := some (relId, slot) })

def openStream (sess : DrainSession) (x : Nat) : Except Error (List (Nat × StreamOp × Nat)) :=
  match sess.streams.lookup x with
  | some ops => .ok ops
  | none => .error (.transfer
      (s!"log_based: row change for stream {x} after its commit or abort — " ++
        "pgoutput protocol desync"))

end DrainSession

/-- A buffered row pins its whole frame plus the range vector. -/
def cellsBytes (row : Tuple) : Nat := row.frame.length + row.len * 12 + 48

def opBytes : StreamOp → Nat
  | .insert t => cellsBytes t
  | .delete t => cellsBytes t
  | .update old new _ => cellsBytes new + old.elim 0 cellsBytes
  | .truncate => 0

def streamsTooBig (openTxs bytes limit : Nat) : Error :=
  .transfer
    (s!"log_based: {openTxs} streamed transaction(s) in flight on the source hold " ++
      s!"{bytes >>> 20} MiB of changes together (APITAP_TX_BUF_BYTES = {limit >>> 20} MiB) — " ++
      "each stays buffered until it commits, and continuing would OOM. Commit or split the " ++
      "long transactions on the source, or raise APITAP_TX_BUF_BYTES (bytes, or a K/M/G " ++
      "suffix) if this process really has that much memory. The watermark is untouched: the " ++
      "next run re-reads them.")

def txTooBig (table : String) (bytes limit : Nat) : Error :=
  .transfer
    (s!"log_based: one transaction's changes for {table} have buffered {bytes >>> 20} MiB " ++
      s!"(APITAP_TX_BUF_BYTES = {limit >>> 20} MiB) — the source ships a transaction whole, so " ++
      "it cannot land in parts, and continuing would OOM. Split the write on the source, or " ++
      "raise APITAP_TX_BUF_BYTES (bytes, or a K/M/G suffix) if this process really has that " ++
      "much memory. The watermark is untouched: the next run re-reads the transaction.")

def recreated (qualified destTable : String) (a b : Nat) : Error :=
  .invalidInput
    (s!"log_based: {qualified} is not the table {destTable} was bootstrapped from " ++
      s!"(relation oids {a} and {b}) — it was dropped and recreated, and the rows the new " ++
      s!"table was loaded with never reached the slot. Re-bootstrap {destTable}: clear its " ++
      "_apitap_state row and run again")

/-- What one turn of the loop reads from outside the stream. -/
structure Moment where
  /-- The deadline passed, or a SIGTERM asked the run to wind down. -/
  stopping : Bool
  fault : Option Error
  /-- The last lsn the apply side committed. -/
  applied : Nat
  following : Bool
  walNow : Except Error Nat

/-- What one `drain` call is given. -/
structure DrainCall where
  stopLine : Nat
  maxBufBytes : Nat
  txLimit : Nat
  keyCols : String → Option (List String)
  follow : Option Nat
  moment : Nat → Moment

/-- The locals of a running drain, and its session. -/
structure Drain (β : Type) where
  sess : DrainSession
  stopLine : Nat
  /-- Each slot's body, once the window has traffic for it. -/
  bodies : List (Option β)
  txBuf : TxOps
  txBytes : Nat
  endLsn : Nat
  bufBytes : Nat
  hitBudget : Bool
  inStream : Option Nat
  /-- A Relation changed the layout of a table this window holds a body for. -/
  relayout : Bool
  reported : List Nat

/-- The window a drain returns: one sealed body per table that had traffic. -/
structure DrainOutcome (W : Type) [WindowBody W] where
  bodies : List (String × TableWindow W)
  id : WindowId
  hitBudget : Bool
  reported : List Nat

section drain

variable {β W : Type} [WindowBody W] [DrainBody β W]

def layoutOf (layouts : String → Option Layout) (table : String) : Except Error Layout :=
  match layouts table with
  | some l => .ok l
  | none => .error (.transfer
      s!"log_based: no column layout for {table} — decoder invariant broken")

def slotBody (sess : DrainSession) (bodies : List (Option β)) (slot : Nat) : Except Error β :=
  match bodies[slot]? with
  | some (some b) => .ok b
  | _ => (layoutOf sess.layouts ((sess.tableOf slot).getD "")).map DrainBody.new

def flushOp (sess : DrainSession) (pos : Nat) (bodies : List (Option β)) (op : Nat × StreamOp) :
    Except Error (List (Option β)) := do
  let bodies := bodies ++ List.replicate (op.1 + 1 - bodies.length) none
  let b ← slotBody sess bodies op.1
  let b ← DrainBody.land b pos op.2
  .ok (bodies.set op.1 (some b))

def flushOps (ops : TxOps) (sess : DrainSession) (bodies : List (Option β)) (pos : Nat) :
    Except Error (List (Option β)) :=
  ops.foldlM (flushOp sess pos) bodies

namespace Drain

/-- Buffer a row change: with its open stream inside a block, else with the
transaction being read. A truncate holds no bytes and is not weighed. -/
def bufferOp (p : DrainCall) (d : Drain β) (sub : Option Nat) (weighed : Bool) (t : Nat)
    (op : StreamOp) : Except Error (Drain β) :=
  let n := opBytes op
  match d.inStream with
  | some x =>
      let bytes := d.sess.streamBytes + n
      if weighed && p.txLimit < bytes then
        .error (streamsTooBig d.sess.streams.keys.length bytes p.txLimit)
      else
        (d.sess.openStream x).map fun ops =>
          { d with
            sess := { d.sess with
              streamBytes := bytes
              streams := d.sess.streams.insert x (ops ++ [(t, op, sub.getD x)]) } }
  | none =>
      let txBytes := d.txBytes + n
      if weighed && p.txLimit < txBytes then
        .error (txTooBig ((d.sess.tableOf t).getD "") txBytes p.txLimit)
      else
        .ok { d with bufBytes := d.bufBytes + n, txBytes := txBytes, txBuf := d.txBuf ++ [(t, op)] }

def rowChange (p : DrainCall) (d : Drain β) (sub : Option Nat) (weighed : Bool) (relId : Nat)
    (op : StreamOp) : Except Error (Drain β) := do
  let (slot, sess) ← d.sess.tracked relId
  let d := { d with sess := sess }
  match slot with
  | some t => d.bufferOp p sub weighed t op
  | none => .ok d

def expect (sess : DrainSession) (table : String) (isTracked : Bool) (relId : Nat) :
    Except Error Unit :=
  match sess.expected table with
  | some (want, dest) =>
      if isTracked ∧ want ≠ relId then .error (recreated table dest relId want) else .ok ()
  | none => .ok ()

/-- A Relation message: register it, and see whether it changed a layout the
window already has a body for. -/
def relation (p : DrainCall) (d : Drain β) (r : Relation) : Except Error (Drain β) := do
  let table := s!"{r.namespaceName}.{r.name}"
  let layout ← Layout.fromRelation r p.keyCols
  let isTracked := layout.isSome
  expect d.sess table isTracked r.relId
  let (slot, sess) ← d.sess.relSlot table isTracked
  let changed := layout.isSome && decide (sess.layouts table ≠ layout)
  let relayout := d.relayout || (changed && (d.bodies[slot]?.bind id).isSome)
  let sess := { sess with
    layouts := if changed then Function.update sess.layouts table layout else sess.layouts }
  let sess := sess.registerRel r.relId slot
  .ok { d with sess := { sess with lastRel := some (r.relId, slot) }, relayout := relayout }

/-- A transaction's ops, and its end, at its commit: they open the next window
if the layout changed under this one, else they land here. The flag says the
drain stops. -/
def commit (p : DrainCall) (d : Drain β) (ops : TxOps) (n e : Nat) :
    Except Error (Drain β × Bool) :=
  if d.relayout then
    .ok ({ d with sess := { d.sess with carry := some (ops, e) }, hitBudget := true }, true)
  else
    (flushOps ops d.sess d.bodies e).map fun bodies =>
      let d := { d with bodies := bodies, bufBytes := d.bufBytes + n, endLsn := e }
      if e ≥ d.stopLine then (d, true)
      else if d.bufBytes + d.sess.streamBytes ≥ p.maxBufBytes then
        ({ d with hitBudget := true }, true)
      else (d, false)

/-- The ops a stream abort leaves: all but the named (sub)transaction's. -/
def abort (sess : DrainSession) (xid subXid : Nat) : DrainSession :=
  match sess.streams.lookup xid with
  | none => sess
  | some ops =>
      let freed := ((ops.filter fun o => o.2.2 = subXid ∨ subXid = xid).map
        fun o => opBytes o.2.1).sum
      { sess with
        streamBytes := sess.streamBytes - freed
        streams :=
          if subXid = xid then sess.streams.erase xid
          else sess.streams.insert xid (ops.filter fun o => o.2.2 ≠ subXid) }

theorem slots_abort (sess : DrainSession) (xid subXid : Nat) :
    (abort sess xid subXid).slots = sess.slots := by
  rw [abort]
  split <;> rfl

theorem slotByName_abort (sess : DrainSession) (xid subXid : Nat) :
    (abort sess xid subXid).slotByName = sess.slotByName := by
  rw [abort]
  split <;> rfl

def message (p : DrainCall) (d : Drain β) (msg : PgoMessage) (changeXid : Option Nat) :
    Except Error (Drain β × Bool) :=
  let sub := changeXid.or d.inStream
  let goOn := Except.map fun d => (d, false)
  match msg with
  | .begin => .ok ({ d with txBuf := [], txBytes := 0 }, false)
  | .commit e => { d with txBuf := [], txBytes := 0 }.commit p d.txBuf 0 e
  | .streamStart xid =>
      let ops := (d.sess.streams.lookup xid).getD []
      .ok ({ d with
        inStream := some xid
        sess := { d.sess with streams := d.sess.streams.insert xid ops } }, false)
  | .streamStop => .ok ({ d with inStream := none }, false)
  | .streamCommit xid e =>
      let ops : List (Nat × StreamOp × Nat) := (d.sess.streams.lookup xid).getD []
      let n := (ops.map fun o => opBytes o.2.1).sum
      let sess := { d.sess with
        streams := d.sess.streams.erase xid
        streamBytes := d.sess.streamBytes - n }
      { d with sess := sess }.commit p (ops.map fun o : Nat × StreamOp × Nat => (o.1, o.2.1)) n e
  | .streamAbort xid subXid => .ok ({ d with sess := abort d.sess xid subXid }, false)
  | .relation r => goOn (d.relation p r)
  | .insert relId new => goOn (d.rowChange p sub true relId (.insert new))
  | .update relId old new =>
      goOn (d.rowChange p sub true relId
        (.update (old.map OldImage.tuple) new (old.any OldImage.full)))
  | .delete relId old => goOn (d.rowChange p sub true relId (.delete old.tuple))
  | .truncate relIds => goOn (relIds.foldlM (fun d id => d.rowChange p sub false id .truncate) d)
  | .origin | .type => .ok (d, false)

def idle (d : Drain β) : Bool := d.txBuf.isEmpty && d.inStream.isNone

/-- A keepalive. At the stop-line and between transactions the window closes at
the caught-up point, unless a follow still fills it to its floor. -/
def keepalive (p : DrainCall) (m : Moment) (d₀ : Drain β) (walEnd : Nat) (replyRequested : Bool) :
    Except Error (Drain β × Bool) :=
  let d := if replyRequested then { d₀ with reported := d₀.reported ++ [m.applied] } else d₀
  if walEnd ≥ d.stopLine ∧ d.idle then
    let filling := p.follow.any fun floor =>
      decide (d.bufBytes + d.sess.streamBytes < floor) && m.following
    if filling then
      m.walNow.map fun now => ({ d with stopLine := max d.stopLine now }, false)
    else
      -- Never past the stop-line: a capped pass stops at a member's watermark.
      .ok ({ d with endLsn := max d.endLsn (min walEnd d.stopLine) }, true)
  else .ok (d, false)

def event (p : DrainCall) (m : Moment) (d : Drain β) : WalEvent → Except Error (Drain β × Bool)
  | .xlogData msg changeXid => d.message p msg changeXid
  | .keepalive walEnd replyRequested => d.keepalive p m walEnd replyRequested

/-- The loop, from its `turn`-th turn: what the drain ends with, and the events
it left unread. A stop between transactions is taken before the next event. -/
def loop (p : DrainCall) (turn : Nat) (d : Drain β) :
    List WalEvent → Except Error (Drain β × List WalEvent)
  | [] => .ok (d, [])
  | ev :: rest =>
      let m := p.moment turn
      if m.stopping ∧ d.idle then .ok (d, ev :: rest)
      else match m.fault with
        | some e => .error e
        | none => (d.event p m ev).bind fun
            | (d, true) => .ok (d, rest)
            | (d, false) => loop p (turn + 1) d rest

/-- The locals a drain starts with; the transaction the previous window stopped
short of opens this one. The flag says it already reached the stop-line. -/
def start (p : DrainCall) (sess : DrainSession) (startLsn : Nat) : Except Error (Drain β × Bool) :=
  let d : Drain β :=
    { sess := sess, stopLine := p.stopLine, bodies := [], txBuf := [], txBytes := 0,
      endLsn := startLsn, bufBytes := 0, hitBudget := false, inStream := none,
      relayout := false, reported := [] }
  match sess.carry with
  | none => .ok (d, false)
  | some (ops, e) =>
      let sess := { sess with carry := none }
      (flushOps ops sess d.bodies e).map fun bodies =>
        ({ d with
          sess := sess
          bodies := bodies
          bufBytes := (ops.map fun o => opBytes o.2).sum
          endLsn := e }, decide (e ≥ p.stopLine))

def sealBodies (d : Drain β) : Except Error (List (String × TableWindow W)) :=
  (d.sess.slots.zipIdx.filterMap fun s => d.bodies[s.2]?.join.map fun b => (s.1.table, b)).mapM
    fun s => (DrainBody.sealBody s.2 s.1).map fun w => (s.1, w)

end Drain

/-- A transaction carried over to the stop-line ends the window at once. -/
def Drain.read (p : DrainCall) (d : Drain β) (carriedToStop : Bool) (events : List WalEvent) :
    Except Error (Drain β × List WalEvent) :=
  if carriedToStop then .ok (d, events) else d.loop p 0 events

variable (β)

/-- One drain call: the window, the session after it, and the unread events. -/
def drain (p : DrainCall) (sess : DrainSession) (startLsn : Nat) (events : List WalEvent) :
    Except Error (DrainOutcome W × DrainSession × List WalEvent) := do
  let (d, carriedToStop) ← (Drain.start p sess startLsn : Except Error (Drain β × Bool))
  let (d, rest) ← d.read p carriedToStop events
  let bodies ← d.sealBodies
  .ok (⟨bodies, ⟨startLsn, d.endLsn⟩, d.hitBudget, d.reported⟩, d.sess, rest)

/-- Successive drains on one session, each from where the last one ended. -/
def drains (sess : DrainSession) (startLsn : Nat) (events : List WalEvent) :
    List DrainCall → Except Error (List (DrainOutcome W) × DrainSession × List WalEvent)
  | [] => .ok ([], sess, events)
  | p :: calls => do
      let (o, sess, rest) ← drain β p sess startLsn events
      let (os, sess, rest) ← drains sess o.id.end rest calls
      .ok (o :: os, sess, rest)

end drain

end Apitap
