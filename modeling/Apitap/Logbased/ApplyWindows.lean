import Mathlib.Data.Finset.Card
import Mathlib.Data.Fintype.Basic
import Mathlib.Order.Bounds.Basic

/-!
# Windows between the drain and the applies

`drain_loop` decodes windows and sends them down a channel; `apply_windows` lands each of them
for every member of the group and says so on a watch. The drain confirms a window to the slot
when the watch has reached its end. Both are written here as what they may do next, in any order
and with every answer the destination may give: a mark that was asked for may be durable before
its answer, without one, or long after the task has died.
-/

namespace Apitap.Slot

/-- The kinds of `Dest`. -/
inductive Store where
  | pg
  | ch
  | my
  | ice
  | bq
deriving DecidableEq

/-- Whether a member at a watermark applies a window: not when it is past it, but BigQuery's arm
asks for no watermark. -/
def Store.applies (dest : Store) (floor endLsn : Nat) : Prop := dest = .bq ∨ floor < endLsn

instance (dest : Store) (floor endLsn : Nat) : Decidable (dest.applies floor endLsn) :=
  inferInstanceAs (Decidable (_ ∨ _))

/-- What of a `DrainOutcome` the loops look at. -/
structure Window where
  endLsn : Nat
  parallelSafe : Bool
deriving DecidableEq

/-- A group on its destination, with each member's stored watermark at drain start. -/
structure Group where
  dest : Store
  members : Nat
  floors : Fin members → Nat
  /-- Where the drain starts: the lowest watermark. -/
  wm : Nat
  lowest : IsLeast (Set.range floors) wm
  /-- How many windows may sit between the drain and the applied one. -/
  depth : Nat

inductive Arm where
  | bq
  | group
  | parallel
  | pooled
  | serial
deriving DecidableEq

def armOf (dest : Store) (members lanes : Nat) (parallelOk : Bool) : Arm :=
  if dest = .bq then .bq
  else if dest = .ch ∧ 1 < members then .group
  else if parallelOk then .parallel
  else if 1 < lanes ∧ 1 < members then .pooled
  else .serial

/-- Where `drain_loop` is. -/
inductive DrainAt where
  | draining
  | sending (w : Window) (hit : Bool)
  /-- Confirming until at most `depth` windows are pending. -/
  | trimming (hit : Bool)
  /-- In `wait_for_apply`, and what comes behind it. -/
  | waiting (p : Nat) (trimming : Option Bool)
  | finishing
  | done
deriving DecidableEq

inductive Turn where
  | queued
  | applying
  | closing
  | done
  | failed
deriving DecidableEq

/-- A window in flight in the parallel arm: how many members have applied it. -/
structure Flight where
  id : Nat
  window : Window
  applied : Nat
  failed : Bool
deriving DecidableEq

inductive Mode where
  | select
  /-- A window that needs the order waits for what is in flight. -/
  | hold (w : Window)
  /-- The channel is closed. -/
  | drainOut
deriving DecidableEq

structure Parallel where
  seq : Nat
  expected : Nat
  done : List (Nat × Window)
  inflight : List Flight
  barrier : Bool
  mode : Mode
  /-- In `settle!`, closing what is contiguous. -/
  settling : Bool

/-- Where `apply_windows` is, with `n` members. -/
inductive ApplyAt (n : Nat) where
  | recv
  /-- Each member in a unit of its own: in a pool of so many lanes, or one after the other. -/
  | own (pool : Option Nat) (w : Window) (turns : Fin n → Turn)
  /-- ClickHouse's members, each without its mark. -/
  | group (pool : Option Nat) (w : Window) (turns : Fin n → Turn)
  | staging (w : Window)
  /-- All the members' marks in one unit, and whether a member had failed. -/
  | closing (w : Window) (failed : Bool)
  | parallel (p : Parallel)
  | prefixClosing (p : Parallel) (w : Window)
  | ended

/-- The marks of a window that a close was asked for, and those that are durable. -/
structure Batch (n : Nat) where
  window : Window
  asked : Finset (Fin n)
  landed : Finset (Fin n)

structure State (G : Group) where
  drain : DrainAt
  /-- Where the next window starts. -/
  cur : Nat
  pending : List Nat
  queue : List Window
  /-- The watch's value. -/
  applied : Nat
  /-- The LSN of the last standby status; before it there is none. -/
  reported : Nat
  apply : ApplyAt G.members
  batch : Option (Batch G.members)
  /-- Each member's durable watermark. -/
  stored : Fin G.members → Nat
  /-- Every window sent, every LSN reported and every mark each member committed so far. -/
  sent : List Window
  reports : List Nat
  commits : Fin G.members → List Nat

def State.start (G : Group) : State G :=
  ⟨.draining, G.wm, [], [], G.wm, 0, .recv, none, G.floors, [], [], fun _ => []⟩

variable {G : Group} {n : Nat}

/-- `standby_status`. -/
def State.report (s : State G) (lsn : Nat) : State G :=
  { s with reported := lsn, reports := s.reports ++ [lsn] }

/-- `applied_tx.send`: without a receiver the value stays. -/
def State.publish (s : State G) (lsn : Nat) : Nat := if s.drain = .done then s.applied else lsn

def State.complete (s : State G) (w : Window) (next : ApplyAt G.members) : State G :=
  { s with applied := s.publish w.endLsn, batch := none, apply := next }

def State.land (s : State G) (b : Batch G.members) (i : Fin G.members) : State G :=
  { s with
    batch := some { b with landed := insert i b.landed }
    stored := Function.update s.stored i b.window.endLsn
    commits := Function.update s.commits i (s.commits i ++ [b.window.endLsn]) }

theorem State.land_stored {s : State G} {b : Batch G.members} {i j : Fin G.members} :
    (s.land b i).stored j = if j = i then b.window.endLsn else s.stored j :=
  Function.update_apply ..

theorem State.land_commits {s : State G} {b : Batch G.members} {i j : Fin G.members} :
    (s.land b i).commits j = if j = i then s.commits i ++ [b.window.endLsn] else s.commits j :=
  Function.update_apply ..

def turn (turns : Fin n → Turn) (i : Fin n) (t : Turn) : Fin n → Turn := Function.update turns i t

/-- A member may begin: with a lane free, or behind all the others before it. -/
def mayBegin (pool : Option Nat) (turns : Fin n → Turn) (i : Fin n) : Prop :=
  match pool with
  | none => ∀ j < i, turns j = .done
  | some lanes =>
      (Finset.univ.filter fun j => turns j = .applying ∨ turns j = .closing).card < lanes

def finished (pool : Option Nat) (turns : Fin n → Turn) : Prop :=
  match pool with
  | none => (∀ i, turns i = .done) ∨ ∃ i, turns i = .failed
  | some _ => ∀ i, turns i = .done ∨ turns i = .failed

def takes (G : Group) (w : Window) (i : Fin G.members) : Prop :=
  G.dest.applies (G.floors i) w.endLsn

instance (G : Group) (w : Window) (i : Fin G.members) : Decidable (takes G w i) :=
  inferInstanceAs (Decidable (G.dest.applies _ _))

/-- The members whose marks go into a group's close: those that applied it. -/
def marked (G : Group) (w : Window) (turns : Fin G.members → Turn) : Finset (Fin G.members) :=
  Finset.univ.filter fun i => turns i = .done ∧ takes G w i

def ApplyAt.begin (G : Group) (w : Window) (lanes : Nat) : Arm → ApplyAt G.members
  | .bq => .staging w
  | .group => .group (if 1 < lanes then some lanes else none) w fun _ => .queued
  | .parallel =>
      .parallel ⟨1, 0, [], [⟨0, w, 0, false⟩], false, .select, false⟩
  | .pooled => .own (some lanes) w fun _ => .queued
  | .serial => .own none w fun _ => .queued

/-- The unit of its own a member's mark goes through is opened with no mark asked for. -/
def Batch.begin (w : Window) : Arm → Option (Batch n)
  | .pooled | .serial => some ⟨w, ∅, ∅⟩
  | _ => none

def Parallel.push (p : Parallel) (w : Window) : Parallel :=
  { p with seq := p.seq + 1, inflight := p.inflight ++ [⟨p.seq, w, 0, false⟩] }

def parallelDepth (G : Group) : Nat := max G.depth 2

/-- What `drain_loop` may do next. -/
inductive DrainStep (s : State G) : State G → Prop where
  /-- In `drain`, a keepalive that asks for an answer. -/
  | answer (at_ : s.drain = .draining) : DrainStep s (s.report s.applied)
  /-- In `next_event`, a quiet stream is asked for a keepalive. -/
  | ask (at_ : s.drain = .draining) : DrainStep s (s.report s.reported)
  /-- SIGTERM, or the end of a follow. -/
  | stop (at_ : s.drain = .draining) : DrainStep s { s with drain := .finishing }
  | fail (at_ : s.drain = .draining) : DrainStep s { s with drain := .done }
  | drained (w : Window) (hit : Bool) (at_ : s.drain = .draining) (on : s.cur ≤ w.endLsn) :
      DrainStep s
        { s with drain := if s.cur < w.endLsn then .sending w hit else .trimming hit }
  | send {w : Window} {hit : Bool} (at_ : s.drain = .sending w hit) (alive : s.apply ≠ .ended)
      (room : s.queue.length < G.depth) (on : s.cur < w.endLsn) :
      DrainStep s
        { s with
          drain := .trimming hit
          queue := s.queue ++ [w]
          sent := s.sent ++ [w]
          pending := s.pending ++ [w.endLsn]
          cur := w.endLsn }
  | unsent {w : Window} {hit : Bool} (at_ : s.drain = .sending w hit) (died : s.apply = .ended) :
      DrainStep s { s with drain := .finishing }
  | trim {hit : Bool} {p : Nat} {ps : List Nat} (at_ : s.drain = .trimming hit)
      (more : G.depth < s.pending.length) (oldest : s.pending = p :: ps) :
      DrainStep s { s with drain := .waiting p (some hit), pending := ps }
  | again {hit : Bool} (at_ : s.drain = .trimming hit) (few : s.pending.length ≤ G.depth) :
      DrainStep s { s with drain := .draining }
  | caughtUp (at_ : s.drain = .trimming false) (few : s.pending.length ≤ G.depth) :
      DrainStep s { s with drain := .finishing }
  | tick {p : Nat} {k : Option Bool} (at_ : s.drain = .waiting p k) :
      DrainStep s (s.report s.applied)
  | confirm {p : Nat} {k : Option Bool} (at_ : s.drain = .waiting p k) (landed : p ≤ s.applied) :
      DrainStep s { s.report p with drain := k.elim .finishing .trimming }
  | unconfirmed {p : Nat} {k : Option Bool} (at_ : s.drain = .waiting p k)
      (landed : p ≤ s.applied) : DrainStep s { s.report p with drain := .done }
  | gone {p : Nat} {k : Option Bool} (at_ : s.drain = .waiting p k) (died : s.apply = .ended)
      (below : s.applied < p) : DrainStep s { s with drain := .finishing }
  | last {p : Nat} {ps : List Nat} (at_ : s.drain = .finishing) (oldest : s.pending = p :: ps) :
      DrainStep s { s with drain := .waiting p none, pending := ps }
  | finish (at_ : s.drain = .finishing) (none : s.pending = []) :
      DrainStep s { s with drain := .done }

/-- What the parallel arm's own books may become. -/
inductive ParallelStep (G : Group) (p : Parallel) : Parallel → Prop where
  | member {fs fs' : List Flight} {f : Flight} (flying : p.inflight = fs ++ f :: fs')
      (more : f.applied < G.members) (well : f.failed = false) :
      ParallelStep G p { p with inflight := fs ++ { f with applied := f.applied + 1 } :: fs' }
  | memberFails {fs fs' : List Flight} {f : Flight} (flying : p.inflight = fs ++ f :: fs')
      (more : f.applied < G.members) :
      ParallelStep G p { p with inflight := fs ++ { f with failed := true } :: fs' }
  | settle {fs fs' : List Flight} {f : Flight} (flying : p.inflight = fs ++ f :: fs')
      (all : f.applied = G.members) (well : f.failed = false) (free : p.settling = false) :
      ParallelStep G p
        { p with
          inflight := fs ++ fs'
          done := p.done ++ [(f.id, f.window)]
          settling := true }
  | settled (in_ : p.settling = true) (gap : ∀ d ∈ p.done, d.1 ≠ p.expected) :
      ParallelStep G p
        { p with
          settling := false
          barrier := p.barrier && !(p.mode = .select && p.inflight.isEmpty) }
  /-- What was in flight has landed: the window goes alone. -/
  | alone {w : Window} (held : p.mode = .hold w) (free : p.settling = false)
      (none : p.inflight = []) :
      ParallelStep G p { p.push w with barrier := true, mode := .select }

/-- The windows of an arm are one's own books apart, one window or many. -/
inductive ApplyStep (s : State G) : State G → Prop where
  | receive {w : Window} {ws : List Window} (lanes : Nat) (parallelOk : Bool)
      (at_ : s.apply = .recv) (first : s.queue = w :: ws)
      (ok : parallelOk = true → G.dest = .ch ∧ w.parallelSafe = true) :
      ApplyStep s
        { s with
          queue := ws
          apply := .begin G w lanes (armOf G.dest G.members lanes parallelOk)
          batch := Batch.begin w (armOf G.dest G.members lanes parallelOk) }
  | finish (at_ : s.apply = .recv) (none : s.queue = []) (closed : s.drain = .done) :
      ApplyStep s { s with apply := .ended }
  /-- The task fails or is aborted wherever it is; what it asked for may still land. -/
  | die : ApplyStep s { s with apply := .ended }
  -- Units of the members' own.
  | ownBegin {pool : Option Nat} {w : Window} {turns : Fin G.members → Turn} (i : Fin G.members)
      (at_ : s.apply = .own pool w turns) (queued : turns i = .queued)
      (may : mayBegin pool turns i) :
      ApplyStep s
        { s with
          apply := .own pool w
            (turn turns i (if w.endLsn ≤ G.floors i then .done else .applying)) }
  | ownClose {pool : Option Nat} {w : Window} {turns : Fin G.members → Turn}
      {b : Batch G.members} (i : Fin G.members) (at_ : s.apply = .own pool w turns)
      (applying : turns i = .applying) (batch : s.batch = some b) :
      ApplyStep s
        { s with
          apply := .own pool w (turn turns i .closing)
          batch := some { b with asked := insert i b.asked } }
  | ownDone {pool : Option Nat} {w : Window} {turns : Fin G.members → Turn}
      {b : Batch G.members} (i : Fin G.members) (at_ : s.apply = .own pool w turns)
      (closing : turns i = .closing) (batch : s.batch = some b) (landed : i ∈ b.landed) :
      ApplyStep s { s with apply := .own pool w (turn turns i .done) }
  | ownFail {pool : Option Nat} {w : Window} {turns : Fin G.members → Turn} (i : Fin G.members)
      (at_ : s.apply = .own pool w turns) (on : turns i = .applying ∨ turns i = .closing) :
      ApplyStep s { s with apply := .own pool w (turn turns i .failed) }
  | ownOk {pool : Option Nat} {w : Window} {turns : Fin G.members → Turn}
      (at_ : s.apply = .own pool w turns) (all : ∀ i, turns i = .done) :
      ApplyStep s (s.complete w .recv)
  | ownErr {pool : Option Nat} {w : Window} {turns : Fin G.members → Turn}
      (at_ : s.apply = .own pool w turns) (ended : finished pool turns)
      (wrong : ∃ i, turns i = .failed) : ApplyStep s { s with apply := .ended }
  -- ClickHouse's group.
  | groupBegin {pool : Option Nat} {w : Window} {turns : Fin G.members → Turn} (i : Fin G.members)
      (at_ : s.apply = .group pool w turns) (queued : turns i = .queued)
      (may : mayBegin pool turns i) :
      ApplyStep s
        { s with
          apply := .group pool w
            (turn turns i (if w.endLsn ≤ G.floors i then .done else .applying)) }
  | groupDone {pool : Option Nat} {w : Window} {turns : Fin G.members → Turn} (i : Fin G.members)
      (at_ : s.apply = .group pool w turns) (applying : turns i = .applying) :
      ApplyStep s { s with apply := .group pool w (turn turns i .done) }
  | groupFail {pool : Option Nat} {w : Window} {turns : Fin G.members → Turn} (i : Fin G.members)
      (at_ : s.apply = .group pool w turns) (applying : turns i = .applying) :
      ApplyStep s { s with apply := .group pool w (turn turns i .failed) }
  /-- What did apply is closed, also when another member failed. -/
  | groupClose {pool : Option Nat} {w : Window} {turns : Fin G.members → Turn}
      (at_ : s.apply = .group pool w turns) (ended : finished pool turns) :
      ApplyStep s
        { s with
          apply := .closing w (decide (∃ i, turns i = .failed))
          batch := some ⟨w, marked G w turns, ∅⟩ }
  -- BigQuery's group: no member is past a window.
  | staged {w : Window} (at_ : s.apply = .staging w) :
      ApplyStep s
        { s with
          apply := .closing w false
          batch := some ⟨w, Finset.univ, ∅⟩ }
  | closeOk {w : Window} {b : Batch G.members} (at_ : s.apply = .closing w false)
      (batch : s.batch = some b) (all : b.asked ⊆ b.landed) : ApplyStep s (s.complete w .recv)
  -- The parallel arm.
  | more {p : Parallel} {w : Window} {ws : List Window} (at_ : s.apply = .parallel p)
      (select : p.mode = .select) (free : p.settling = false)
      (room : p.inflight.length < parallelDepth G) (open_ : p.barrier = false)
      (first : s.queue = w :: ws) :
      ApplyStep s
        { s with
          queue := ws
          apply := .parallel (if w.parallelSafe then p.push w else { p with mode := .hold w }) }
  | closed {p : Parallel} (at_ : s.apply = .parallel p) (select : p.mode = .select)
      (free : p.settling = false) (room : p.inflight.length < parallelDepth G)
      (open_ : p.barrier = false) (none : s.queue = []) (closed : s.drain = .done) :
      ApplyStep s { s with apply := .parallel { p with mode := .drainOut } }
  | books {p p' : Parallel} (at_ : s.apply = .parallel p) (step : ParallelStep G p p') :
      ApplyStep s { s with apply := .parallel p' }
  | prefixClose {p : Parallel} {w : Window} {ds ds' : List (Nat × Window)}
      (at_ : s.apply = .parallel p) (in_ : p.settling = true)
      (next : p.done = ds ++ (p.expected, w) :: ds') :
      ApplyStep s
        { s with
          apply := .prefixClosing { p with done := ds ++ ds' } w
          batch := some ⟨w, Finset.univ.filter (takes G w), ∅⟩ }
  | prefixOk {p : Parallel} {w : Window} {b : Batch G.members}
      (at_ : s.apply = .prefixClosing p w) (batch : s.batch = some b)
      (all : b.asked ⊆ b.landed) :
      ApplyStep s (s.complete w (.parallel { p with expected := p.expected + 1 }))
  | armOver {p : Parallel} (at_ : s.apply = .parallel p) (out : p.mode = .drainOut)
      (free : p.settling = false) (none : p.inflight = []) :
      ApplyStep s { s with apply := .recv }

/-- What may happen next: either loop goes on, or a mark that was asked for becomes durable. -/
inductive Step (s : State G) : State G → Prop where
  | drain {s' : State G} (step : DrainStep s s') : Step s s'
  | apply {s' : State G} (step : ApplyStep s s') : Step s s'
  | land {b : Batch G.members} (i : Fin G.members) (batch : s.batch = some b)
      (asked : i ∈ b.asked) (fresh : i ∉ b.landed) : Step s (s.land b i)

inductive Reaches (G : Group) : State G → Prop where
  | start : Reaches G (.start G)
  | step {s s' : State G} (before : Reaches G s) (step : Step s s') : Reaches G s'

def marksOf (G : Group) (i : Fin G.members) (ws : List Window) : List Nat :=
  (ws.filter fun w => takes G w i).map Window.endLsn

end Apitap.Slot
