import Mathlib.Data.List.Infix
import Apitap.Foundation.Effect
import Apitap.Wire.Pgoutput

/-!
# A BigQuery script and its job

A script is submitted under a client job id, so asking again is safe: a POST whose
answer was lost, or whose poll failed, is sent again under the same id, and BigQuery
answers 409 when the first one landed. Where an attempt failed decides the id of the
next one.
-/

namespace Apitap.BigQuery

/-- Whether a text holds another. -/
def mentions (m w : String) : Bool := w.toList <:+: m.toList

def lostMark : String := "apitap-lease-lost"

inductive ScriptErr where
  /-- No verdict on the job: it may have run, and committed. -/
  | transport (message : String)
  /-- The job finished with an error, or cannot be ours. -/
  | failed (message : String)
deriving DecidableEq

def ScriptErr.message : ScriptErr → String
  | .transport m | .failed m => m

inductive Retry where
  | sameId
  | newId
deriving DecidableEq

inductive ErrClass where
  /-- The script's lease fence fired: this run no longer holds the table. -/
  | lost
  | retry
  | fail
deriving DecidableEq

def retryable (message : String) : Bool :=
  let m := message.toList.map Char.toLower
  ["concurrent update", "aborted", "ratelimitexceeded", "rate limit", "backenderror",
    "internalerror", "internal error", "500 ", "502 ", "503 ", "504 "].any
      fun w => w.toList <:+: m

/-- A fence failure raised inside a transaction comes back with "aborted" around it,
so `lost` is decided first. -/
def scriptErrorClass (message : String) : ErrClass :=
  if mentions message lostMark then .lost
  else if retryable message then .retry
  else .fail

/-- Whether, and how, a job is tried again after `attempt` retries. -/
def nextTry (e : ScriptErr) (attempt : Nat) : Option Retry :=
  if 5 ≤ attempt then none
  else match e with
    | .transport m => match scriptErrorClass m with
        | .retry => some .sameId
        | .fail => if mentions m "error sending request" then some .sameId else none
        | .lost => none
    | .failed m => if scriptErrorClass m = .retry then some .newId else none

/-! ## Calls to the service -/

inductive JobState where
  | running
  /-- DONE, with its error when it failed. -/
  | done (errorResult : Option String)
deriving DecidableEq

inductive Call where
  | dataset
  | insert (id sql : String)
  | get (id : String)
  | cancel (id : String)

/-- What comes back: a resource, or the error the HTTP layer makes of anything else. -/
inductive Answer where
  | located (location : String)
  | accepted
  | job (query : String) (state : JobState)
  | error (message : String)

abbrev Client (α : Type) := Prog Call Answer α

abbrev Verdict := Except ScriptErr Unit

def jobFailed (id error : String) : ScriptErr := .failed s!"bigquery job {id} failed: {error}"

def jobCancelled (id error : String) : ScriptErr :=
  .failed s!"bigquery job {id} failed (cancelled after 30 minutes): {error}"

def foreignJob (id : String) : ScriptErr :=
  .failed s!"bigquery job id {id} belongs to another query"

def deadlineMsg (id : String) : String :=
  s!"bigquery job {id} exceeded 30 minutes and did not settle after a cancel " ++
    "request — its fate is unknown; the window must not be treated as " ++
    "committed-nothing"

def noLocation : ScriptErr := .transport "bigquery dataset reports no location"

/-- Poll a job at most so many times; `none` when it never was DONE. -/
def pollDone (id : String) : Nat → Client (Option Verdict)
  | 0 => pure none
  | tries + 1 => do
      match ← Prog.ask (.get id) with
      | .error m => pure (some (.error (.transport m)))
      | .job _ (.done (some error)) => pure (some (.error (jobFailed id error)))
      | .job _ (.done none) => pure (some (.ok ()))
      | _ => pollDone id tries

/-- After the cancel: a job that turns out DONE is its own verdict, anything else an
unknown fate. -/
def settle (id : String) : Nat → Client Verdict
  | 0 => pure (.error (.transport (deadlineMsg id)))
  | tries + 1 => do
      match ← Prog.ask (.get id) with
      | .error _ => pure (.error (.transport (deadlineMsg id)))
      | .job _ (.done (some error)) => pure (.error (jobCancelled id error))
      | .job _ (.done none) => pure (.ok ())
      | _ => settle id tries

def poll (id : String) : Client Verdict := do
  match ← pollDone id 900 with
  | some verdict => pure verdict
  | none => do
      let _ ← Prog.ask (.cancel id)
      settle id 30

/-- Whether the job a 409 names is the one this attempt submitted. -/
def adopt (id sql : String) : Client Verdict := do
  match ← Prog.ask (.get id) with
  | .error m => pure (.error (.transport m))
  | .job query _ => if query = sql then poll id else pure (.error (foreignJob id))
  | _ => pure (.error (foreignJob id))

def submit (sql id : String) : Client Verdict := do
  match ← Prog.ask (.insert id sql) with
  | .error m => if mentions m "bigquery 409 " then adopt id sql else pure (.error (.transport m))
  | _ => poll id

/-- The location is asked once a connection; here it is asked each time, and may fail
each time. -/
def runJob (sql id : String) : Client Verdict := do
  match ← Prog.ask .dataset with
  | .located _ => submit sql id
  | .error m => pure (.error (.transport m))
  | _ => pure (.error noLocation)

inductive Outcome where
  | done
  /-- `definite` says the job finished with an error; otherwise its fate is unknown. -/
  | failed (e : ScriptErr) (definite : Bool)
  /-- This drain no longer holds the table; always definite. -/
  | noLongerHolds
deriving DecidableEq

/-- The retries of a script; `id n` is the n-th fresh job id. Five retries is all
`nextTry` allows. -/
def retries (sql : String) (id : Nat → String) : Nat → Nat → Nat → Client Outcome
  | 0, _, _ => pure (.failed noLocation false)
  | fuel + 1, n, attempt => do
      match ← runJob sql (id n) with
      | .ok () => pure .done
      | .error e =>
          if scriptErrorClass e.message = .lost then pure .noLongerHolds
          else match nextTry e attempt with
            | some .sameId => retries sql id fuel n (attempt + 1)
            | some .newId => retries sql id fuel (n + 1) (attempt + 1)
            | none => pure (.failed e (match e with | .failed _ => true | .transport _ => false))

def cdcScriptOutcome (sql : String) (id : Nat → String) : Client Outcome := retries sql id 6 0 0

/-! ## The service -/

structure Job where
  sql : String
  state : JobState
deriving DecidableEq

structure Service where
  jobs : String → Option Job
  /-- POSTs that were sent and may still be handled. -/
  inFlight : List (String × String)
  /-- The job this script's lost lease was reported for. -/
  lost : Option String
  /-- A job was submitted after another one's lost lease was reported. -/
  late : Bool

/-- An error of the HTTP layer is never the text of a script's own fence. -/
def Transient (message : String) : Prop := mentions message lostMark = false

namespace Service

def start (s : Service) (id sql : String) : Service :=
  { s with jobs := fun j => if j = id then some ⟨sql, .running⟩ else s.jobs j }

def sent (s : Service) (id : String) : Service :=
  { s with late := s.late || s.lost.any (· ≠ id) }

def seen (s : Service) (sql id : String) (job : Job) : Service :=
  match job.state with
  | .done (some error) =>
      if job.sql = sql ∧ mentions error lostMark = true then { s with lost := some id } else s
  | _ => s

/-- What the service does on its own: a running job commits or fails, and a POST that
was under way starts its job unless the id is known. -/
inductive Drift : Service → Service → Prop
  | finish {s : Service} {id sql : String} (error : Option String)
      (running : s.jobs id = some ⟨sql, .running⟩) :
      Drift s { s with jobs := fun j => if j = id then some ⟨sql, .done error⟩ else s.jobs j }
  | land {s : Service} {id sql : String} (flying : (id, sql) ∈ s.inFlight)
      (unknown : s.jobs id = none) : Drift s (s.start id sql)

/-- How the service may answer a call of the script `sql`. -/
inductive Serve (sql : String) : Service → Call → Answer → Service → Prop
  | located {s : Service} (location : String) : Serve sql s .dataset (.located location) s
  | failed {s : Service} {c : Call} {m : String} (transient : Transient m)
      (asked : ∀ id q, c ≠ .insert id q) : Serve sql s c (.error m) s
  | cancelled {s : Service} {id : String} : Serve sql s (.cancel id) .accepted s
  | job {s : Service} {id : String} {j : Job} (known : s.jobs id = some j) :
      Serve sql s (.get id) (.job j.sql j.state) (s.seen sql id j)
  | accepted {s : Service} {id q : String} (unknown : s.jobs id = none) :
      Serve sql s (.insert id q) .accepted ((s.sent id).start id q)
  /-- It started, and the answer was lost. -/
  | unheard {s : Service} {id q m : String} (unknown : s.jobs id = none) (transient : Transient m) :
      Serve sql s (.insert id q) (.error m) ((s.sent id).start id q)
  /-- A known id answers 409, or the answer was lost, or the POST is still under way. -/
  | refused {s : Service} {id q m : String} (transient : Transient m) :
      Serve sql s (.insert id q) (.error m)
        { s.sent id with inFlight := (id, q) :: s.inFlight }

def env (sql : String) : Env Service Call Answer := ⟨Drift, Serve sql⟩

end Service

/-- Client job ids: a fixed front and the hex digits of a fresh UUID each. -/
structure FreshIds (id : Nat → String) : Prop where
  distinct : ∀ m n, id m = id n → m = n
  shape : ∀ n, ∃ digits : List Char,
    (∀ d ∈ digits, d ∈ "0123456789abcdef".toList) ∧ (id n).toList = "apitap_cdc_".toList ++ digits

end Apitap.BigQuery
