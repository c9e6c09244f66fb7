import Apitap.Logbased.Binlog

/-!
# Draining a binlog

A run dumps the log from the last recorded window end, drains window after window into
a queue, and the destination records them in order. It may be killed at any point, with
what it drained and did not record; the next one dumps afresh. `drain_windows` decides
after each window whether there is another and up to which stop-line.
-/

namespace Apitap

namespace Mysource

/-- A server's log from a coordinate on, and the tables the runs follow. Files count from 1,
and the first event of one stands behind its magic number. -/
structure Binlog where
  stem : Bytes
  tracked : List (String × List String)
  file : Nat
  pos : Nat
  entries : List Entry
  file_pos : 0 < file
  file_lt : file < 2 ^ 31
  magic : 4 ≤ pos
  pos_lt : pos < 2 ^ 32

/-- The server before the log's first entry. -/
def Binlog.master (log : Binlog) : Master := .start log.file log.pos

/-- The coordinate the log begins at, as a watermark. -/
def Binlog.mark (log : Binlog) : Nat := log.file * 2 ^ 32 + log.pos

/-- An entry a dump from the coordinate sends. -/
def Entry.past (file pos : Nat) (e : Entry) : Bool :=
  decide (file < e.file) ||
    decide (file = e.file) && (decide (pos < e.stop) || decide (pos = e.stop) && e.rotates)

/-- A dump under way: where in its log the server is, and what it has not sent. -/
structure Dump where
  master : Master
  unread : List Entry
deriving DecidableEq

/-- What a dump sends next: the log's next entry, one of the events a server makes up,
or its end. -/
inductive Feed where
  | entry
  /-- An artificial ROTATE restates the file. -/
  | restate
  | describe
  | heartbeat (code : Nat)
  | finish
deriving DecidableEq

/-- An event the replica reads, with its true end, and the dump after it. -/
def Dump.send? [Unicode] (log : Binlog) (d : Dump) : Feed → Option (Option (Event × Nat) × Dump)
  | .entry =>
      match d.unread with
      | [] => none
      | e :: rest => (d.master.step? log.stem log.tracked e).map fun m =>
          (some (e.event, e.stop), ⟨m, rest⟩)
  | .restate => some (some (⟨0, .rotate (fileName log.stem d.master.file)⟩, 0), d)
  | .describe => some (some (⟨0, .formatDescription⟩, 0), d)
  | .heartbeat code =>
      if (code = 27 ∨ code = 41) ∧ d.master.bound = [] then
        some (some (⟨d.master.pos % 2 ^ 32, .coded code⟩, d.master.pos), d)
      else none
  | .finish => some (none, d)

/-- What `drain_windows` reads between two windows: whether it follows and the follow is
over, and where the server is now. -/
structure After where
  follow : Option Bool
  now : Except Error Nat

/-- The next window's stop-line, if there is a next window. -/
def nextStop (a : After) (stopLine : Nat) (caughtUp hitBudget : Bool) :
    Except Error (Option Nat) :=
  if !caughtUp && hitBudget then .ok (some stopLine)
  else match a.follow with
    | none => .ok none
    | some ceased => if ceased then .ok none else a.now.map fun now => some (max stopLine now)

section run

variable (β : Type) {W : Type} [WindowBody W] [DrainBody β W]

/-- One `drain_windows` under way. -/
structure Session where
  dump : Dump
  drain : Drain β
  watermark : Nat
  stopLine : Nat

/-- The stored watermark and the windows recorded with it, the windows drained and not
recorded yet, and the run under way. -/
structure Sys (W : Type) [WindowBody W] where
  mark : Nat
  recorded : List (DrainOutcome W)
  queue : List (DrainOutcome W)
  session : Option (Session β)

/-- What may happen next. -/
inductive Act where
  /-- A run begins at the stored watermark. -/
  | connect (stopLine : Nat)
  | turn (m : Moment) (feed : Feed) (after : After)
  /-- The oldest drained window is recorded. -/
  | apply
  | kill

variable {β}

namespace Sys

def start (log : Binlog) : Sys β W := ⟨log.mark, [], [], none⟩

/-- A fresh session dumps from the stored watermark, once what the run before drained is
recorded. The server refuses a position no event ends at. -/
def connect? [Unicode] (log : Binlog) (s : Sys β W) (stopLine : Nat) : Option (Sys β W) :=
  let file := max (unpack s.mark).1 1
  let pos := max (unpack s.mark).2 4
  let sent := log.entries.takeWhile fun e => !e.past file pos
  let unread := log.entries.dropWhile fun e => !e.past file pos
  if s.session.isNone ∧ s.queue = [] ∧ s.mark < stopLine then
    (log.master.run? log.stem log.tracked sent).bind fun m =>
      if m.file = file ∧ m.pos = pos then
        let sess := MySession.fresh (fileName log.stem file) log.tracked
        some { s with session := some ⟨⟨m, unread⟩, .start sess s.mark, s.mark, stopLine⟩ }
      else none
  else none

/-- A window is drained: unless it is empty and ends where it began, it is sent. -/
def close (s : Sys β W) (ss : Session β) (dump : Dump) (d : Drain β) (ceased : Bool)
    (after : After) : Sys β W :=
  match d.outcome ss.watermark with
  | .error _ => { s with session := none }
  | .ok o =>
      let caughtUp := decide (o.id.end = ss.watermark) && o.bodies.isEmpty
      let s := if caughtUp then s else { s with queue := s.queue ++ [o] }
      match nextStop after ss.stopLine caughtUp o.hitBudget, ceased with
      | .ok (some stopLine), false =>
          { s with session := some ⟨dump, .start d.sess o.id.end, o.id.end, stopLine⟩ }
      | _, _ => { s with session := none }

/-- A turn of the run's loop. A failed one ends the run. -/
def turn? [Unicode] (log : Binlog) (maxBufBytes txLimit : Nat) (s : Sys β W) (m : Moment)
    (feed : Feed) (after : After) : Option (Sys β W) :=
  s.session.bind fun ss => (ss.dump.send? log feed).map fun (ev, dump) =>
    match ss.drain.turn ⟨ss.stopLine, maxBufBytes, txLimit⟩ m (ev.map Prod.fst) with
    | .error _ => { s with session := none }
    | .ok (d, _, false) => { s with session := some { ss with dump := dump, drain := d } }
    | .ok (d, read, true) =>
        s.close ss (if read then dump else ss.dump) d ev.isNone after

def step? [Unicode] (log : Binlog) (maxBufBytes txLimit : Nat) (s : Sys β W) :
    Act → Option (Sys β W)
  | .connect stopLine => s.connect? log stopLine
  | .turn m feed after => s.turn? log maxBufBytes txLimit m feed after
  | .apply =>
      match s.queue with
      | [] => none
      | o :: rest => some { s with mark := o.id.end, recorded := s.recorded ++ [o], queue := rest }
  | .kill => some { s with queue := [], session := none }

end Sys

/-- Where the runs over a log may lead, when every step meets a condition. -/
inductive Reach [Unicode] (log : Binlog) (maxBufBytes txLimit : Nat)
    (P : Sys β W → Act → Prop) : Sys β W → Prop
  | start : Reach log maxBufBytes txLimit P (.start log)
  | step {s s' : Sys β W} {a : Act} (reached : Reach log maxBufBytes txLimit P s) (meets : P s a)
      (stepped : s.step? log maxBufBytes txLimit a = some s') :
      Reach log maxBufBytes txLimit P s'

/-- Steps that each meet a condition. -/
def Sys.steps? [Unicode] (log : Binlog) (maxBufBytes txLimit : Nat) (P : Sys β W → Act → Prop)
    [∀ s a, Decidable (P s a)] (s : Sys β W) (acts : List Act) : Option (Sys β W) :=
  acts.foldlM (fun s a => if P s a then s.step? log maxBufBytes txLimit a else none) s

theorem Reach.steps [Unicode] {log : Binlog} {maxBufBytes txLimit : Nat}
    {P : Sys β W → Act → Prop} [∀ s a, Decidable (P s a)] {s s' : Sys β W} {acts : List Act}
    (reached : Reach log maxBufBytes txLimit P s)
    (ran : s.steps? log maxBufBytes txLimit P acts = some s') :
    Reach log maxBufBytes txLimit P s' := by
  induction acts generalizing s with
  | nil =>
      cases ran
      exact reached
  | cons a acts ih =>
      rw [Sys.steps?, List.foldlM_cons] at ran
      obtain ⟨s₁, stepped, ran⟩ := Option.bind_eq_some_iff.mp ran
      split at stepped
      · rename_i meets
        exact ih (.step reached meets stepped) ran
      · cases stepped

end run

/-- The drain moves its end to where the event ends. -/
def Drain.takes [Unicode] {β : Type} (d : Drain β) (ev : Event) : Bool :=
  match ev.body with
  | .xid => true
  | .query db sql =>
      match queryVerb (trimStart sql) with
      | .commit => true
      | .ddl => !d.bodies.keys.isEmpty || !d.txBuf.isEmpty ||
          !(Master.truncated d.sess.tracked db (trimStart sql)).isEmpty
      | _ => false
  | .coded code => !isTxStart code && skippable code && d.txBuf.isEmpty &&
      decide (0 < ev.logPos ∧ d.endMark < packPos d.sess.file ev.logPos)
  | _ => false

/-- No event the drain moves its end to ends past 4 GiB in its file. -/
def Addressable [Unicode] (log : Binlog) {β W : Type} [WindowBody W] (s : Sys β W) : Act → Prop
  | .turn _ feed _ => ∀ ss ∈ s.session, ∀ sent ∈ ss.dump.send? log feed, ∀ ev ∈ sent.1,
      ss.drain.takes ev.1 = true → ev.2 < 2 ^ 32
  | _ => True

instance [Unicode] (log : Binlog) {β W : Type} [WindowBody W] (s : Sys β W) :
    (a : Act) → Decidable (Addressable log s a)
  | .turn _ feed _ => inferInstanceAs (Decidable (∀ ss ∈ s.session,
      ∀ sent ∈ ss.dump.send? log feed, ∀ ev ∈ sent.1, ss.drain.takes ev.1 = true → ev.2 < 2 ^ 32))
  | .connect _ | .apply | .kill => .isTrue trivial

/-- The windows, each from where the last one ended, cut these groups into one chunk
each: a chunk commits at or below its window's end and is exactly what the window hands over,
no DDL stands between two groups of it, and everything after it commits above that end.
`later` is what no window has. -/
inductive Cuts (β : Type) {W : Type} [WindowBody W] [DrainBody β W] :
    Nat → List (DrainOutcome W) → List Group → List Group → Prop
  | nil (mark : Nat) (later : List Group) : Cuts β mark [] later later
  | cons {mark : Nat} {o : DrainOutcome W} {os : List (DrainOutcome W)}
      {chunk groups later : List Group} (start : o.id.start = mark) (forward : mark ≤ o.id.end)
      (hands : o.Hands β (chunk.map Group.tx)) (landed_le : ∀ g ∈ chunk, g.tx.commit ≤ o.id.end)
      (era : ∀ g ∈ chunk, ∀ g' ∈ chunk, g.era = g'.era)
      (lt_later : ∀ g ∈ groups, o.id.end < g.tx.commit)
      (rest : Cuts β o.id.end os groups later) : Cuts β mark (o :: os) (chunk ++ groups) later

/-- The ends of the windows never go backwards. -/
theorem Cuts.forwards {β W : Type} [WindowBody W] [DrainBody β W] {mark : Nat}
    {os : List (DrainOutcome W)} {groups later : List Group} (cuts : Cuts β mark os groups later) :
    (mark :: os.map fun o => o.id.end).IsChain (· ≤ ·) := by
  induction cuts with
  | nil => exact .singleton _
  | cons start forward hands landed_le era lt_later rest ih => exact .cons_cons forward ih

/-! ### Sample logs -/

namespace Sample

/-- Texts of ASCII characters ask nothing of it. -/
abbrev ascii : Unicode := ⟨fun _ => false⟩

/-- A statement's table map, and the row it inserts in a table of one column. -/
def statement (stop : Nat) (k : UInt8) : List Entry :=
  [⟨1, stop, .tableMap 7 "d" "t" [⟨3, 0⟩]⟩,
    ⟨1, stop + 40, .rows 7 [.insert (.fromCells [.text [k]])]⟩]

/-- A transaction, one that is rolled back, a truncate, a transaction, and the file's end. -/
def truncated : List Entry :=
  ⟨1, 126, .formatDescription⟩ :: ⟨1, 168, .coded 162⟩ :: statement 210 1 ++
    ⟨1, 281, .xid⟩ :: ⟨1, 323, .coded 162⟩ :: statement 365 2 ++
    ⟨1, 440, .query "d".toList "ROLLBACK".toList⟩ ::
    ⟨1, 490, .query "d".toList "TRUNCATE t".toList⟩ :: ⟨1, 532, .coded 162⟩ ::
    statement 574 3 ++ [⟨1, 645, .xid⟩, ⟨1, 690, .rotate (fileName [98] 2)⟩]

/-- Two transactions; the file passes 4 GiB in rows the second one changes in a table no
run follows. -/
def outgrown : List Entry :=
  ⟨1, 126, .formatDescription⟩ :: ⟨1, 168, .coded 162⟩ :: statement 210 1 ++
    ⟨1, 281, .xid⟩ :: ⟨1, 323, .coded 162⟩ :: statement 365 2 ++
    [⟨1, 447, .tableMap 8 "d" "u" [⟨3, 0⟩]⟩, ⟨1, 2 ^ 30, .rows 8 []⟩, ⟨1, 2 ^ 31, .rows 8 []⟩,
      ⟨1, 3 * 2 ^ 30, .rows 8 []⟩, ⟨1, 2 ^ 32 + 179, .rows 8 []⟩, ⟨1, 2 ^ 32 + 210, .xid⟩,
      ⟨1, 2 ^ 32 + 255, .rotate (fileName [98] 2)⟩]

def log (entries : List Entry) : Binlog where
  stem := [98]
  tracked := [("d.t", ["k"])]
  file := 1
  pos := 4
  entries := entries
  file_pos := by decide
  file_lt := by decide
  magic := by decide
  pos_lt := by decide

/-- A turn that reads what the dump sends; the table has its one column. -/
def turn (feed : Feed) : Act :=
  .turn ⟨false, none, fun _ _ => .ok ⟨["k"], [none], by decide⟩⟩ feed ⟨none, .ok 0⟩

/-- A run to the next file that reads some events. -/
def events (n : Nat) : List Act := .connect (2 * 2 ^ 32 + 4) :: List.replicate n (turn .entry)

/-- The windows recorded, by their ends in the file. -/
def ends (s : Sys Collapser Collapsed) : List (Nat × Nat) :=
  s.recorded.map fun o => (o.id.start - 2 ^ 32, o.id.end - 2 ^ 32)

end Sample

end Mysource

end Apitap
