import Mathlib.Data.Prod.Lex
import Apitap.Foundation.TopPerKey
import Apitap.Logbased.Changelog
import Apitap.Logbased.ChangelogLane

/-!
# The current state derived from the log

`<table>__current` keeps three rules in order: drop every row at or below the newest
`T`, keep each key's newest row, then drop the keys whose newest row is `D`. Rows are
ordered by `(lsn, seq)`; a change outranks the baseline row it shares a position with.
ClickHouse and BigQuery spell the rules differently.
-/

namespace Apitap

/-- One operation as the log holds it. -/
structure Entry where
  op : ChangeOp
  row : Option Tuple
deriving DecidableEq

namespace LogRow

/-- The data columns; a `T` record carries no row at all. -/
def row (r : LogRow Entry) : Option Tuple :=
  match r.entry with
  | .baseline row => some row
  | .event e => e.row

def isOp (op : ChangeOp) (r : LogRow Entry) : Bool :=
  match r.entry with
  | .baseline _ => false
  | .event e => e.op = op

def key (pkIdx : List Nat) (r : LogRow Entry) : List Cell :=
  pkIdx.map fun i => (r.row.bind (·.get i)).getD .null

/-- `(lsn, seq)`. -/
def pos {ε : Type} (r : LogRow ε) : Nat ×ₗ Nat := toLex (r.lsn, r.seq)

/-- `ORDER BY lsn DESC, seq DESC, op = 'B' ASC`. -/
def before (a b : LogRow Entry) : Bool :=
  b.pos < a.pos ∨ a.pos = b.pos ∧ (b.isEvent → a.isEvent)

end LogRow

/-- The newest `T`, or the position nothing is below. -/
def truncatedAt (log : List (LogRow Entry)) : Nat ×ₗ Nat :=
  ((log.filter (LogRow.isOp .truncate)).map LogRow.pos).foldl max (toLex (0, 0))

/-- Each wanted key's newest row past the newest `T`, unless it is a `D`. -/
def newestRows (pkIdx : List Nat) (want : List Cell → Bool) (log : List (LogRow Entry)) :
    List (LogRow Entry) :=
  (topPerKey (LogRow.key pkIdx) LogRow.before
    (log.filter fun r => want (r.key pkIdx) ∧ truncatedAt log < r.pos)).filter
      fun r => !r.isOp .delete

/-- What `<table>__current` selects. -/
def currentView (pkIdx : List Nat) (log : List (LogRow Entry)) : List (LogRow Entry) :=
  newestRows pkIdx (fun _ => true) log

/-! BigQuery has no row-value comparison: the newest `T` is its highest lsn and the
highest seq at that lsn, and the pair test is spelled out. -/

namespace Bq

/-- `MAX`, with 0 over nothing. -/
def maxOr0 (xs : List Nat) : Nat := xs.foldl max 0

def truncatedLsn (log : List (LogRow Entry)) : Nat :=
  maxOr0 ((log.filter (LogRow.isOp .truncate)).map LogRow.lsn)

def truncatedSeq (log : List (LogRow Entry)) : Nat :=
  maxOr0 ((log.filter fun r => r.isOp .truncate ∧ r.lsn = truncatedLsn log).map LogRow.seq)

def currentView (pkIdx : List Nat) (log : List (LogRow Entry)) : List (LogRow Entry) :=
  (topPerKey (LogRow.key pkIdx) LogRow.before
    (log.filter fun r => truncatedLsn log < r.lsn ∨
      r.lsn = truncatedLsn log ∧ truncatedSeq log < r.seq)).filter fun r => !r.isOp .delete

end Bq

/-! ## Appending a window -/

/-- The rows that were in the log before the window `plan` appends. -/
def beforeWindow (plan : ReplayPlan) (r : LogRow Entry) : Bool :=
  r.lsn < plan.stamp ∨ r.lsn = plan.stamp ∧ (r.seq < plan.seqBase ∨ r.isEvent = false)

/-- A key's cells as the log's key columns hold them. -/
def keyCells (k : Key) : List Cell := k.map .text

/-- What every masked column held before this window, for every key that needs one. -/
def readBase (pkIdx : List Nat) (log : List (LogRow Entry)) (keys : List Key) (cols : List Nat)
    (plan : ReplayPlan) (k : Key) : Option (List Changes.Value) :=
  let rows := newestRows pkIdx (fun cells => cells ∈ keys.map keyCells)
    (log.filter (beforeWindow plan))
  if k ∈ keys then
    (rows.find? fun r => r.key pkIdx = keyCells k).map fun r =>
      cols.map fun i => ((r.row.bind (·.get i)).bind Changes.valueOf).getD none
  else none

/-- The rows a window appends, in its events' order. -/
def changelogEntries (log : List (LogRow Entry)) (plan : ReplayPlan) (c : Changes) :
    Except Error (List Entry) :=
  let patched := if c.masked then
    let asked := c.maskPlan
    c.resolveMasked asked.2 (readBase c.layout.keyIdx log asked.1 asked.2 plan)
  else .ok (c.events.map fun _ => none)
  patched.map fun rows => c.events.zipWith (fun e row => ⟨e.op, row.or e.row⟩) rows

/-- One window of a table's log: where its rows are stamped and numbered from, and
what happened. -/
structure LoggedWindow where
  stamp : Nat
  seqBase : Nat
  ops : List StreamOp

/-- What the window's plan appends: every event. -/
def LoggedWindow.plan (w : LoggedWindow) (events : Nat) : ReplayPlan :=
  ⟨w.stamp, w.seqBase, 0, events, none, true, w.stamp⟩

/-- A window's ops as the log captures them. -/
def Changes.captured (l : Layout) (ops : List StreamOp) : Changes :=
  ops.foldl (fun c op => c.land 0 op) (.new l)

/-- Append windows to a log one after the other. -/
def logWindows (l : Layout) (log : List (LogRow Entry)) :
    List LoggedWindow → Except Error (List (LogRow Entry))
  | [] => .ok log
  | w :: ws =>
      let c := Changes.captured l w.ops
      let plan := w.plan c.events.length
      (changelogEntries log plan c).bind fun entries =>
        logWindows l (log ++ changelogBody plan entries) ws

/-- The bootstrap's rows: at the slot's LSN, seq 0. -/
def baselineRows (lsn : Nat) (rows : List Tuple) : List (LogRow Entry) :=
  rows.map fun row => ⟨lsn, 0, .baseline row⟩

end Apitap
