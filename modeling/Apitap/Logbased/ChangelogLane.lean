import Mathlib.Data.List.Dedup
import Mathlib.Logic.Relation
import Apitap.Logbased.Replay
import Apitap.Wire.Pgoutput

/-!
# A changelog table's appends

ClickHouse has no transaction to hold a window's rows and its watermark together,
so an attempt can die after any of its writes. A lane is one member's destination:
its log, its markers, its stored watermark, and what the running process remembers
of them. Whatever older releases wrote is in the log from the start.
-/

namespace Apitap

/-- A row of the log: what the bootstrap loaded (`B`), or a captured event. -/
inductive Logged (ε : Type) where
  | baseline (row : Tuple)
  | event (e : ε)
deriving DecidableEq

structure LogRow (ε : Type) where
  /-- `_apitap_lsn`. -/
  lsn : Nat
  /-- `_apitap_seq`. -/
  seq : Nat
  entry : Logged ε
deriving DecidableEq

namespace LogRow

variable {ε : Type}

def isEvent (r : LogRow ε) : Bool :=
  match r.entry with
  | .baseline _ => false
  | .event _ => true

/-- The order of the log's readers. -/
def Before (a b : LogRow ε) : Prop := a.lsn < b.lsn ∨ a.lsn = b.lsn ∧ a.seq < b.seq

end LogRow

variable {ε : Type}

def seqsAt (log : List (LogRow ε)) (stamp : Nat) : List Nat :=
  (log.filter fun r => r.isEvent ∧ r.lsn = stamp).map LogRow.seq

/-- What is at `stamp` already, counted from `base`. -/
def factsAt (log : List (LogRow ε)) (stamp base : Nat) : StampFacts :=
  let seqs := seqsAt log stamp
  let up := seqs.filter (base ≤ ·)
  ⟨⟨seqs.length, seqs.max?⟩, ⟨up.length, up.max?⟩, seqs.dedup.length⟩

/-- The log's highest non-baseline stamp. -/
def ceilingOf (log : List (LogRow ε)) : Option Nat :=
  ((log.filter LogRow.isEvent).map LogRow.lsn).max?

/-- The newer of the newest marker so far and the next one written. -/
def newer (newest : Option MarkerRow) (m : MarkerRow) : Option MarkerRow :=
  match newest with
  | none => some m
  | some best => if best.start ≤ m.start then some m else some best

/-- The newest of a table's markers: the highest start, the last written on a tie. -/
def newestMarker (markers : List MarkerRow) : Option MarkerRow := markers.foldl newer none

/-- How the probe reads a marker; no events is a marker 0.56.0 wrote. -/
def MarkerRow.pending (m : MarkerRow) : Pending :=
  ⟨m.start, if m.events = 0 then none else some m.seqBase⟩

/-- One write of a changelog window, in the only order they run. -/
inductive ChStep where
  /-- Delete this stamp's non-baseline rows from this seq up. -/
  | trim («from» : Nat)
  | mark (m : MarkerRow)
  | append
deriving DecidableEq, Repr

def changelogSteps (plan : ReplayPlan) : List ChStep :=
  plan.trimFrom.toList.map .trim ++ plan.marker.toList.map .mark ++
    if plan.skip < plan.events then [.append] else []

/-- The rows `plan` appends. -/
def changelogBody (plan : ReplayPlan) (events : List ε) : List (LogRow ε) :=
  ((events.zipIdx.take plan.events).drop plan.skip).map fun e =>
    ⟨plan.stamp, plan.seqOf e.2, .event e.1⟩

/-- What reaches the destination: an append can land any prefix of its rows. -/
inductive LogWrite (ε : Type) where
  | trim (stamp «from» : Nat)
  | mark (m : MarkerRow)
  | row (r : LogRow ε)

def ChStep.writes (plan : ReplayPlan) (events : List ε) : ChStep → List (LogWrite ε)
  | .trim «from» => [.trim plan.stamp «from»]
  | .mark m => [.mark m]
  | .append => (changelogBody plan events).map .row

def changelogWrites (plan : ReplayPlan) (events : List ε) : List (LogWrite ε) :=
  (changelogSteps plan).flatMap (ChStep.writes plan events)

structure Lane (ε : Type) where
  log : List (LogRow ε)
  markers : List MarkerRow
  watermark : Nat
  memo : Memo

/-- The events of one table among a source's commits, over `(start, end]`. -/
def eventsIn (history : List (Nat × ε)) (start «end» : Nat) : List ε :=
  (history.filter fun e => start < e.1 ∧ e.1 ≤ «end»).map Prod.snd

def eventsAfter (history : List (Nat × ε)) (start : Nat) : List ε :=
  (history.filter fun e => start < e.1).map Prod.snd

namespace Lane

/-- The newest marker, as the probe reads it. -/
def pending (l : Lane ε) : Option Pending := (newestMarker l.markers).map MarkerRow.pending

def write (l : Lane ε) : LogWrite ε → Lane ε
  | .trim stamp «from» =>
      { l with log := l.log.filter fun r => ¬ (r.isEvent ∧ r.lsn = stamp ∧ «from» ≤ r.seq) }
  | .mark m => { l with markers := l.markers ++ [m] }
  | .row r => { l with log := l.log ++ [r] }

def writes (l : Lane ε) (ws : List (LogWrite ε)) : Lane ε := ws.foldl write l

/-- What the memo holds once asked: the first window of a run probes. -/
def consult (l : Lane ε) : Memo :=
  match l.memo with
  | none => Memo.probed l.pending (ceilingOf l.log)
  | some s => some s

/-- The facts the memo asks for. -/
def asked (l : Lane ε) (id : WindowId) : Option StampFacts :=
  match l.consult.ask id with
  | .facts base => some (factsAt l.log id.start base)
  | .nothing | .probe => none

/-- The plan for this table's share of the window. -/
def planOf (l : Lane ε) (table : String) (id : WindowId) (events : Nat) :
    Except String ReplayPlan :=
  l.consult.plan table (l.asked id) id events

/-- `replayPlan` over the true facts. -/
def truePlan (l : Lane ε) (table : String) (id : WindowId) (events : Nat) :
    Except String ReplayPlan :=
  replayPlan table l.pending (some (factsAt l.log id.start (l.pending.elim 0 Pending.queryBase)))
    id events

/-- An attempt at the window from the stored watermark to `e` runs to its end: every
write, then the watermark. -/
def Commits (table : String) (history : List (Nat × ε)) (l l' : Lane ε) : Prop :=
  ∃ e plan, l.watermark < e ∧
    l.planOf table ⟨l.watermark, e⟩ (eventsIn history l.watermark e).length = .ok plan ∧
    l' = { l.writes (changelogWrites plan (eventsIn history l.watermark e)) with
      watermark := plan.watermark
      memo := l.consult.committed plan }

/-- What can happen to a lane next. -/
inductive Step (table : String) (history : List (Nat × ε)) (l : Lane ε) : Lane ε → Prop
  | restart : Step table history l { l with memo := none }
  | refused {e : Nat} {why : String} (later : l.watermark < e)
      (planned : l.planOf table ⟨l.watermark, e⟩ (eventsIn history l.watermark e).length =
        .error why) :
      Step table history l { l with memo := l.memo.forget }
  /-- The attempt dies once `k` of its writes landed; when all did, before the
  watermark. -/
  | died {e : Nat} {plan : ReplayPlan} (k : Nat) (later : l.watermark < e)
      (planned : l.planOf table ⟨l.watermark, e⟩ (eventsIn history l.watermark e).length =
        .ok plan) :
      Step table history l
        { l.writes ((changelogWrites plan (eventsIn history l.watermark e)).take k) with
          memo := l.memo.forget }
  | committed {l' : Lane ε} (commits : l.Commits table history l') : Step table history l l'

end Lane

end Apitap
