import Mathlib.Data.List.FinRange
import Mathlib.Logic.Function.Basic
import Mathlib.Logic.Relation

/-!
# A crew of worker tasks

Each task of a crew drives one loader: it runs a body that takes statements off a shared
queue, then finishes or aborts the loader. One latch, set by the first failure, stops the
queue. A join loop waits for every task and decides what the crew answers. The tasks and
the loop interleave at every access to the latch and the queue, and at every call of a
loader, which may fail or panic.
-/

namespace Apitap.Pipe

inductive Error where
  | transfer (text : String)
  | other (kind text : String)
deriving DecidableEq

def cancelled : Error :=
  .transfer "cancelled: a sibling worker failed first — its error is the one reported"

inductive Rows where
  /-- The loader's `finish()` value. -/
  | fromLoader
  /-- The worker's own tally. -/
  | own (n : Nat)
  /-- The loader's value when non-zero, the own tally otherwise. -/
  | loaderElseOwn (n : Nat)
deriving DecidableEq

def Rows.resolve (rows : Rows) (rep : Nat) : Nat :=
  match rows with
  | .fromLoader => rep
  | .own n => n
  | .loaderElseOwn n => if rep > 0 then rep else n

inductive Outcome where
  | done (rows : Nat)
  | cause (e : Error)
  | cancelled
deriving DecidableEq

/-- A task that did not report. -/
inductive JoinError where
  | panic (text : String)
  | cancelled (text : String)
deriving DecidableEq

/-- It is an error, and it names itself. -/
def joinFailure : JoinError → Error
  | .panic text => .transfer ("worker panicked: " ++ text)
  | .cancelled text => .transfer ("worker ended without finishing: " ++ text)

inductive Ran where
  | ok (rows : Rows)
  | err (e : Error)
  | panicked (text : String)
deriving DecidableEq

/-- What `drive` aborts the loader of a failed body with. -/
def Ran.error : Ran → Option Error
  | .ok _ => none
  | .err e => some e
  | .panicked text => some (.transfer ("worker panicked: " ++ text))

inductive Phase where
  /-- In the body; its last `next` may have said that the queue is empty. -/
  | body (drained : Bool)
  /-- In `next`, past its look at the latch. -/
  | looked
  | returned (r : Ran)
  | finishing (rows : Rows)
  /-- `finish` failed, and the latch is claimed next. -/
  | unfinished (e : Error)
  /-- The latch was claimed, or was set before. -/
  | aborting (first : Bool)
  | ended (o : Outcome)
  | died (e : JoinError)
deriving DecidableEq

inductive Event where
  | claimed
  | handed (sql : String)
  | ran (ok : Bool)
  | finish
  | abort (cause : Error)
  | landed (rows : Nat)
deriving DecidableEq

def Event.consumes : Event → Bool
  | .finish | .abort _ => true
  | _ => false

def Event.sql : Event → Option String
  | .handed sql => some sql
  | _ => none

structure View where
  latch : Bool
  queue : List String
  phase : Phase

/-- One step of a task. A body may fail or panic at any time, and calls `next` until the
queue is empty; a `send` changes nothing that others can tell. -/
inductive Drive : View → List Event → View → Prop
  /-- A latched set refuses the next statement, and the body passes that on. -/
  | refused {q : List String} {d : Bool} :
      Drive ⟨true, q, .body d⟩ [.ran false] ⟨true, q, .returned (.err Pipe.cancelled)⟩
  | look {q : List String} {d : Bool} : Drive ⟨false, q, .body d⟩ [] ⟨false, q, .looked⟩
  | pop {l : Bool} {sql : String} {q : List String} :
      Drive ⟨l, sql :: q, .looked⟩ [.handed sql] ⟨l, q, .body false⟩
  | drained {l : Bool} : Drive ⟨l, [], .looked⟩ [] ⟨l, [], .body true⟩
  | returns {l : Bool} {q : List String} {rows : Rows} :
      Drive ⟨l, q, .body true⟩ [.ran true] ⟨l, q, .returned (.ok rows)⟩
  | fails {l : Bool} {q : List String} {d : Bool} {e : Error} :
      Drive ⟨l, q, .body d⟩ [.ran false] ⟨l, q, .returned (.err e)⟩
  | panics {l : Bool} {q : List String} {d : Bool} {text : String} :
      Drive ⟨l, q, .body d⟩ [.ran false] ⟨l, q, .returned (.panicked text)⟩
  | finish {q : List String} {rows : Rows} :
      Drive ⟨false, q, .returned (.ok rows)⟩ [.finish] ⟨false, q, .finishing rows⟩
  | late {q : List String} {rows : Rows} :
      Drive ⟨true, q, .returned (.ok rows)⟩ [.abort Pipe.cancelled] ⟨true, q, .aborting false⟩
  /-- The latch is claimed before the abort, so siblings stop during it. -/
  | first {q : List String} {r : Ran} {e : Error} (failed : r.error = some e) :
      Drive ⟨false, q, .returned r⟩ [.abort e, .claimed] ⟨true, q, .aborting true⟩
  | second {q : List String} {r : Ran} {e : Error} (failed : r.error = some e) :
      Drive ⟨true, q, .returned r⟩ [.abort e] ⟨true, q, .aborting false⟩
  | finished {l : Bool} {q : List String} {rows : Rows} {rep : Nat} :
      Drive ⟨l, q, .finishing rows⟩ [.landed (rows.resolve rep)]
        ⟨l, q, .ended (.done (rows.resolve rep))⟩
  | finishFails {l : Bool} {q : List String} {rows : Rows} {e : Error} :
      Drive ⟨l, q, .finishing rows⟩ [] ⟨l, q, .unfinished e⟩
  | unfinishedFirst {q : List String} {e : Error} :
      Drive ⟨false, q, .unfinished e⟩ [.claimed] ⟨true, q, .ended (.cause e)⟩
  | unfinishedSecond {q : List String} {e : Error} :
      Drive ⟨true, q, .unfinished e⟩ [] ⟨true, q, .ended .cancelled⟩
  /-- The error is what the abort makes of it. -/
  | aborted {l : Bool} {q : List String} {first : Bool} {e : Error} :
      Drive ⟨l, q, .aborting first⟩ [] ⟨l, q, .ended (if first then .cause e else .cancelled)⟩
  /-- `catch_unwind` covers the body only. -/
  | finishPanics {l : Bool} {q : List String} {rows : Rows} {text : String} :
      Drive ⟨l, q, .finishing rows⟩ [] ⟨l, q, .died (.panic text)⟩
  | abortPanics {l : Bool} {q : List String} {first : Bool} {text : String} :
      Drive ⟨l, q, .aborting first⟩ [] ⟨l, q, .died (.panic text)⟩

/-! ## The join loop -/

structure Joined where
  cause : Option Error
  sawCancel : Bool
  rows : Nat
  /-- The first join error whose claim of the latch was refused. -/
  lost : Option Error

def Joined.take (j : Joined) : Outcome → Joined
  | .done n => { j with rows := j.rows + n }
  | .cause e => { j with cause := some e }
  | .cancelled => { j with sawCancel := true }

/-- A claimed cause first, a task that did not report next, a cancelled sibling last. -/
def Joined.answer (j : Joined) : Except Error Nat :=
  match j.cause, j.lost, j.sawCancel with
  | some e, _, _ => .error e
  | none, some e, _ => .error e
  | none, none, true => .error Pipe.cancelled
  | none, none, false => .ok j.rows

/-! ## The crew -/

structure Crew (n : Nat) where
  latch : Bool
  queue : List String
  phase : Fin n → Phase
  /-- What each task did, newest first; the loop claims in a dead task's name. -/
  events : List (Fin n × Event)
  seen : List (Fin n)
  joined : Joined
  /-- A task that did not report, and the loop has not yet tried the latch for. -/
  claiming : Option (Fin n × JoinError)
  result : Option (Except Error Nat)

namespace Crew

variable {n : Nat}

def start (n : Nat) (stmts : List String) : Crew n :=
  ⟨false, stmts, fun _ => .body false, [], [], ⟨none, false, 0, none⟩, none, none⟩

def view (c : Crew n) (i : Fin n) : View := ⟨c.latch, c.queue, c.phase i⟩

def put (c : Crew n) (i : Fin n) (events : List Event) (v : View) : Crew n :=
  { c with
    latch := v.latch
    queue := v.queue
    phase := Function.update c.phase i v.phase
    events := events.map (i, ·) ++ c.events }

inductive Step : Crew n → Crew n → Prop
  | drive {c : Crew n} {i : Fin n} {events : List Event} {v : View}
      (drives : Drive (c.view i) events v) : Step c (c.put i events v)
  | join {c : Crew n} {i : Fin n} {o : Outcome} (idle : c.claiming = none) (new : i ∉ c.seen)
      (ended : c.phase i = .ended o) :
      Step c { c with seen := i :: c.seen, joined := c.joined.take o }
  | joinDied {c : Crew n} {i : Fin n} {e : JoinError} (idle : c.claiming = none) (new : i ∉ c.seen)
      (died : c.phase i = .died e) : Step c { c with seen := i :: c.seen, claiming := some (i, e) }
  | claim {c : Crew n} {i : Fin n} {e : JoinError} (dead : c.claiming = some (i, e))
      (free : c.latch = false) :
      Step c { c with
        latch := true
        events := (i, .claimed) :: c.events
        joined := { c.joined with cause := some (joinFailure e) }
        claiming := none }
  | lose {c : Crew n} {i : Fin n} {e : JoinError} (dead : c.claiming = some (i, e))
      (taken : c.latch = true) :
      Step c { c with
        joined := { c.joined with lost := c.joined.lost.or (some (joinFailure e)) }
        claiming := none }
  /-- The set is empty: every task has been joined. -/
  | answer {c : Crew n} (idle : c.claiming = none) (all : ∀ i, i ∈ c.seen) :
      Step c { c with result := some c.joined.answer }

/-- `Pipes::run`, so far. -/
abbrev Reaches : Crew n → Crew n → Prop := Relation.ReflTransGen Step

end Crew

/-! ## Opening the loaders -/

inductive Opening where
  | opened (n : Nat)
  | failed (e : Error)
  /-- A panic of an abort goes through. -/
  | panicked (text : String)
deriving DecidableEq

/-- Abort the loaders that are open, in order; the text of a panic that ends it. -/
def takeBack (aborts : Nat → Option String) : List Nat → Option String × List (Nat × Event)
  | [] => (none, [])
  | i :: rest =>
      match aborts i with
      | some text => (some text, [(i, .abort (.transfer "a sibling pipe failed to open"))])
      | none =>
          let (ended, events) := takeBack aborts rest
          (ended, (i, .abort (.transfer "a sibling pipe failed to open")) :: events)

/-- Open the loaders that are left. If the k-th open fails, abort those already open. -/
def openFrom (opens : Nat → Except Error Unit) (aborts : Nat → Option String) :
    Nat → Nat → Opening × List (Nat × Event)
  | 0, k => (.opened k, [])
  | left + 1, k =>
      match opens k with
      | .ok () => openFrom opens aborts left (k + 1)
      | .error e =>
          match takeBack aborts (List.range k) with
          | (none, events) => (.failed e, events)
          | (some text, events) => (.panicked text, events)

/-- `Pipes::open`: what it returns, and what it did to the loaders it had opened. -/
def openPipes (n : Nat) (opens : Nat → Except Error Unit) (aborts : Nat → Option String) :
    Opening × List (Nat × Event) :=
  openFrom opens aborts n 0

end Apitap.Pipe
