import Apitap.Logbased.Drain
import Apitap.Logbased.Source

/-!
# The server's stream

What a Postgres server may send over one replication connection, and what it
says was committed. Whole transactions, blocks of streamed ones and keepalives
interleave; commits come in increasing order, each past every position the
server has announced.
-/

namespace Apitap

/-- A committed transaction: its changes to tracked tables, and its commit's end. -/
structure Tx where
  ops : List (String × StreamOp)
  commit : Nat
deriving DecidableEq, Repr

/-- One table's ops of a transaction, with the position they land at. -/
def Tx.opsOf (table : String) (tx : Tx) : List (Nat × StreamOp) :=
  tx.ops.filterMap fun op => if op.1 = table then some (tx.commit, op.2) else none

/-- One table's ops of a run of transactions. -/
def opsOf (table : String) (txs : List Tx) : List (Nat × StreamOp) := txs.flatMap (Tx.opsOf table)

/-- The row changes a message carries, by relation. -/
def PgoMessage.changes : PgoMessage → List (Nat × StreamOp)
  | .insert relId new => [(relId, .insert new)]
  | .update relId old new =>
      [(relId, .update (old.map OldImage.tuple) new (old.any OldImage.full))]
  | .delete relId old => [(relId, .delete old.tuple)]
  | .truncate relIds => relIds.map (·, .truncate)
  | _ => []

/-- The table a Relation message names. -/
def Relation.table (r : Relation) : String := s!"{r.namespaceName}.{r.name}"

/-- The server's side of a connection. -/
structure Server where
  /-- The table each relation was last announced as. -/
  catalogue : Nat → Option String
  /-- The transaction being sent whole. -/
  tx : Option (List (String × StreamOp))
  /-- The transaction whose block is open. -/
  block : Option Nat
  /-- The streamed transactions in progress: each change with the
  (sub)transaction that made it. -/
  streams : Nat → Option (List (Nat × String × StreamOp))
  committed : List Tx
  /-- Nothing will commit at or below this position any more. -/
  horizon : Nat

namespace Server

/-- A connection that streams from a position. -/
def start (wm : Nat) : Server := ⟨fun _ => none, none, none, fun _ => none, [], wm⟩

/-- The tracked changes among some row changes, by table. Every relation a row
change names was announced. -/
def resolve (keyCols : String → Option (List String)) (sv : Server)
    (changes : List (Nat × StreamOp)) : Option (List (String × StreamOp)) :=
  (changes.mapM fun c => (sv.catalogue c.1).map (·, c.2)).map
    (·.filter fun c => (keyCols c.1).isSome)

def commit (sv : Server) (ops : List (String × StreamOp)) (e : Nat) : Option Server :=
  if sv.horizon < e then
    some { sv with committed := sv.committed ++ [⟨ops, e⟩], horizon := e }
  else none

/-- Between transactions and between stream blocks. -/
def between (sv : Server) : Bool := sv.tx.isNone && sv.block.isNone

/-- Row changes belong to the open block, each naming the (sub)transaction that
made it, or to the transaction being sent whole. -/
def change (sv : Server) (sub : Option Nat) (ops : List (String × StreamOp)) : Option Server :=
  match sv.block with
  | some x => sub.bind fun sub => (sv.streams x).map fun sent =>
      { sv with streams := Function.update sv.streams x (some (sent ++ ops.map (sub, ·))) }
  | none => sv.tx.map fun sent => { sv with tx := some (sent ++ ops) }

/-- What the server may send next. -/
def step? (keyCols : String → Option (List String)) (sv : Server) : WalEvent → Option Server
  | .keepalive walEnd _ => some { sv with horizon := max sv.horizon walEnd }
  | .xlogData msg sub =>
      match msg with
      | .begin => if sv.between then some { sv with tx := some [] } else none
      | .commit e =>
          if sv.block.isNone then sv.tx.bind fun ops => { sv with tx := none }.commit ops e
          else none
      | .streamStart xid =>
          if sv.between then
            let sent := (sv.streams xid).getD []
            some { sv with
              block := some xid
              streams := Function.update sv.streams xid (some sent) }
          else none
      | .streamStop => if sv.block.isSome then some { sv with block := none } else none
      | .streamCommit xid e =>
          if sv.between then
            (sv.streams xid).bind fun sent =>
              { sv with streams := Function.update sv.streams xid none }.commit
                (sent.map Prod.snd) e
          else none
      | .streamAbort xid subXid =>
          if sv.between then
            let left := if subXid = xid then none
              else (sv.streams xid).map fun sent => sent.filter fun op => op.1 ≠ subXid
            some { sv with streams := Function.update sv.streams xid left }
          else none
      | .relation r =>
          some { sv with catalogue := Function.update sv.catalogue r.relId (some r.table) }
      | .origin | .type => some sv
      | .insert .. | .update .. | .delete .. | .truncate .. =>
          (sv.resolve keyCols msg.changes).bind fun ops => sv.change sub ops

/-- A legal stream, and where it leaves the server. -/
def run? (keyCols : String → Option (List String)) (sv : Server) :
    List WalEvent → Option Server
  | [] => some sv
  | ev :: events => (sv.step? keyCols ev).bind fun sv => sv.run? keyCols events

theorem run?_append {keyCols : String → Option (List String)} {sv : Server}
    {events events' : List WalEvent} : sv.run? keyCols (events ++ events') =
      (sv.run? keyCols events).bind fun sv => sv.run? keyCols events' := by
  induction events generalizing sv with
  | nil => rfl
  | cons ev events ih =>
      rw [List.cons_append, run?, run?, Option.bind_assoc]
      exact congrArg _ (funext fun _ => ih)

/-- Commits are only ever added, past every position announced before. -/
def Extends (sv sv' : Server) : Prop :=
  ∃ txs, sv'.committed = sv.committed ++ txs ∧ (∀ tx ∈ txs, sv.horizon < tx.commit) ∧
    sv.horizon ≤ sv'.horizon

section commits

variable {sv sv' sv'' : Server} {keyCols : String → Option (List String)}

theorem Extends.quiet (committed : sv'.committed = sv.committed)
    (horizon : sv.horizon ≤ sv'.horizon) : sv.Extends sv' :=
  ⟨[], by rw [committed, List.append_nil], nofun, horizon⟩

theorem Extends.trans (first : sv.Extends sv') (second : sv'.Extends sv'') : sv.Extends sv'' := by
  obtain ⟨now, committed, past, grew⟩ := first
  obtain ⟨later, committed', past', grew'⟩ := second
  refine ⟨now ++ later, by rw [committed', committed, List.append_assoc], fun tx mem => ?_,
    le_trans grew grew'⟩
  cases List.mem_append.mp mem with
  | inl mem => exact past tx mem
  | inr mem => exact lt_of_le_of_lt grew (past' tx mem)

theorem extends_commit {ops : List (String × StreamOp)} {e : Nat}
    (legal : sv.commit ops e = some sv') : sv.Extends sv' := by
  rw [commit] at legal
  split at legal
  · rename_i later
    cases legal
    exact ⟨[⟨ops, e⟩], rfl, by simpa using later, Nat.le_of_lt later⟩
  · cases legal

theorem extends_change {ops : List (String × StreamOp)} {sub : Option Nat}
    (legal : sv.change sub ops = some sv') : sv.Extends sv' := by
  rw [change] at legal
  split at legal
  · obtain ⟨u, -, legal⟩ := Option.bind_eq_some_iff.mp legal
    obtain ⟨sent, -, rfl⟩ := Option.map_eq_some_iff.mp legal
    exact .quiet rfl le_rfl
  · obtain ⟨sent, -, rfl⟩ := Option.map_eq_some_iff.mp legal
    exact .quiet rfl le_rfl

theorem extends_step {ev : WalEvent} (legal : sv.step? keyCols ev = some sv') :
    sv.Extends sv' := by
  cases ev with
  | keepalive walEnd reply =>
      cases legal
      exact .quiet rfl (le_max_left _ _)
  | xlogData msg sub =>
      cases msg with
      | commit e =>
          rw [step?] at legal
          split at legal
          · obtain ⟨ops, -, legal⟩ := Option.bind_eq_some_iff.mp legal
            have committed := extends_commit legal
            exact Extends.trans (.quiet rfl le_rfl) committed
          · cases legal
      | streamCommit xid e =>
          rw [step?] at legal
          split at legal
          · obtain ⟨sent, -, legal⟩ := Option.bind_eq_some_iff.mp legal
            have committed := extends_commit legal
            exact Extends.trans (.quiet rfl le_rfl) committed
          · cases legal
      | begin | streamStart xid | streamStop | streamAbort xid subXid =>
          rw [step?] at legal
          split at legal
          · cases legal
            exact .quiet rfl le_rfl
          · cases legal
      | relation r =>
          cases legal
          exact .quiet rfl le_rfl
      | origin | type =>
          cases legal
          exact .quiet rfl le_rfl
      | insert | update | delete | truncate =>
          obtain ⟨ops, -, legal⟩ := Option.bind_eq_some_iff.mp legal
          exact extends_change legal

theorem extends_run {events : List WalEvent} (legal : sv.run? keyCols events = some sv') :
    sv.Extends sv' := by
  induction events generalizing sv with
  | nil =>
      cases legal
      exact .quiet rfl le_rfl
  | cons ev events ih =>
      obtain ⟨sv₁, first, legal⟩ := Option.bind_eq_some_iff.mp legal
      exact (extends_step first).trans (ih legal)

end commits

end Server

namespace Sample

/-- The table `public.t`, as the server announces it. -/
def relation : Relation where
  relId := 7
  namespaceName := "public"
  name := "t"
  replicaIdentity := .default
  cols := [⟨true, "id", 23, -1⟩, ⟨false, "body", 25, -1⟩]
  names := by decide

def keyCols : String → Option (List String) := fun _ => some ["id"]

/-- A drain to a stop-line, with room to spare. -/
def drainTo (stopLine : Nat) : DrainCall where
  stopLine := stopLine
  maxBufBytes := 1000
  txLimit := 1000
  keyCols := keyCols
  follow := none
  moment _ := ⟨false, none, 0, false, .ok 0⟩

/-- A streamed transaction whose savepoint rolls back, a whole transaction
between its block and its commit, and a keepalive. -/
def stream : List WalEvent :=
  [.xlogData (.streamStart 5) none, .xlogData (.relation relation) (some 5),
    .xlogData (.insert 7 (image 1 10)) (some 5), .xlogData (.insert 7 (image 2 20)) (some 6),
    .xlogData .streamStop none, .xlogData .begin none, .xlogData (.insert 7 (image 3 30)) none,
    .xlogData (.commit 20) none, .xlogData (.streamAbort 5 6) none,
    .xlogData (.streamCommit 5 30) none, .keepalive 40 true]

/-- The windows successive drains of a stream hand over, by their positions. -/
def windowIds (wm : Nat) (events : List WalEvent) (calls : List DrainCall) :
    Option (List WindowId) :=
  match drains Collapser (.expecting fun _ => none) wm events calls with
  | .ok (os, _, _) => some (os.map DrainOutcome.id)
  | .error _ => none

end Sample

end Apitap
