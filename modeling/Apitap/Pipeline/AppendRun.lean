import Apitap.Sink.AppendState
import Mathlib.Data.List.Infix
import Mathlib.Logic.Function.Basic
import Mathlib.Logic.Relation
import Mathlib.Order.WithBot

/-!
# Append runs of one table

Any number of runs, of any number of sources, feed one table. Sources commit rows at
any time, every call of a run stands alone, and a run may die between any two of them;
what it leaves beside the table stays until somebody sweeps it.
-/

namespace Apitap.Append

open Iceberg (Mode)
open Guard (Name Token RunId blockers)

/-- The statements of one read, over the cursor they look at. -/
abbrev Statements (κ : Type) := List (κ → Bool)

/-- A split of a source's rows above a bound into statements: every cursor is one
statement's, and all but the last end below a row that is there. A read that found
nothing to split reads nothing. -/
inductive Splits {κ : Type} [LinearOrder κ] (log : List κ) (above : κ → Bool) :
    Statements κ → Prop
  | ranges {closed : Statements κ} {last : κ → Bool}
      (once : ∀ v, (closed ++ [last]).countP (· v) = 1)
      (ends : ∀ p ∈ closed, ∀ v, p v = true → ∃ hi ∈ log, v ≤ hi) : Splits log above (closed ++
        [last])
  | nothing (empty : ∀ v ∈ log, above v = false) : Splits log above [fun _ => false]

/-- Where a run is. -/
inductive Phase (κ : Type) where
  | idle
  /-- In its first look: the destination at each query so far. -/
  | looking (seen : List (Db κ))
  | planned (plan : Plan)
  /-- Its lock stands. -/
  | locked (plan : Plan)
  /-- It listed the locks, and has the staging tables to list. -/
  | scanning (plan : Plan) (locks : List Name)
  | passed (plan : Plan)
  /-- Its staging stands. -/
  | staged (plan : Plan)
  /-- In its second look. -/
  | relooking (plan : Plan) (seen : List (Db κ))
  | confirmed (plan : Plan)
  | loading (plan : Plan) (left : Statements κ) (rows : List κ)
  | ceased

/-- The runs' destination table and its feeders. -/
structure Fleet (κ : Type) where
  cursor : Cursor κ
  table : String
  destKey : String
  /-- The key is a schema's and a table's name. -/
  qualified : (pgStateKeys destKey).2 = destKey
  /-- The source each run reads, and the columns it delivers. -/
  source : Token → String
  cols : Token → List String
  /-- The source's hash, as the token carries it. -/
  hash : String → Nat
  /-- Every row a source commits is above this. -/
  floor : String → WithBot κ

structure World (κ : Type) where
  /-- The rows each source has committed, by cursor, in commit order. -/
  log : String → List κ
  db : Db κ
  runs : Token → Phase κ

namespace Fleet

variable {κ : Type} (F : Fleet κ)

def lock (τ : Token) : Name := ⟨F.table, .lock, some τ⟩

def staging (τ : Token) : Name := ⟨F.table, .staging, some τ⟩

def bound (τ : Token) : Bound := ⟨F.destKey, F.source τ, F.cols τ⟩

theorem bound_qualified (τ : Token) :
    (pgStateKeys (F.bound τ).destKey).2 = (F.bound τ).destKey := by
  have same : (F.bound τ).destKey = F.destKey := rfl
  rw [same]
  exact F.qualified

/-- The token an append run of its source mints. -/
def Mints (τ : Token) : Prop := τ.kind = .incremental ∧ τ.source = F.hash (F.source τ)

end Fleet

namespace World

variable {κ : Type} (w : World κ)

def goto (τ : Token) (p : Phase κ) : World κ := { w with runs := Function.update w.runs τ p }

def create (n : Name) : World κ := { w with db := { w.db with objects := w.db.objects ++ [n] } }

def drop (n : Name) : World κ :=
  { w with db := { w.db with objects := w.db.objects.filter (· ≠ n) } }

def commit (s : String) (v : κ) : World κ :=
  { w with log := Function.update w.log s (w.log s ++ [v]) }

@[simp] theorem commit_log_self (s : String) (v : κ) : (w.commit s v).log s = w.log s ++ [v] :=
  Function.update_self ..

theorem commit_log_ne {s t : String} (ne : t ≠ s) (v : κ) : (w.commit s v).log t = w.log t :=
  Function.update_of_ne ne ..

end World

variable {κ : Type} [LinearOrder κ]

/-- The moments of a look. -/
def moments (seen : List (Db κ)) (i : Nat) : Db κ := seen.getD i ⟨none, [], []⟩

/-- One move of a source, of a run, or of whoever clears up behind a dead one. -/
inductive Step (F : Fleet κ) : World κ → World κ → Prop
  | commit {w : World κ} (s : String) (v : κ) (above : F.floor s < v)
      (rises : ∀ x ∈ w.log s, x < v) :
      Step F w (w.commit s v)
  | start {w : World κ} {τ : Token} (here : w.runs τ = .idle) (mints : F.Mints τ) :
      Step F w (w.goto τ (.looking []))
  | look {w : World κ} {τ : Token} {seen : List (Db κ)} (here : w.runs τ = .looking seen) :
      Step F w (w.goto τ (.looking (seen ++ [w.db])))
  | decide {w : World κ} {τ : Token} {seen : List (Db κ)} {st : DestState} {plan : Plan}
      (here : w.runs τ = .looking seen) (all : seen.length = 6)
      (found : destState F.cursor (F.bound τ) (moments seen) = .ok st)
      (decided : planOf F.cursor st = .ok plan) : Step F w (w.goto τ (.planned plan))
  | announce {w : World κ} {τ : Token} {plan : Plan} (here : w.runs τ = .planned plan) :
      Step F w ((w.create (F.lock τ)).goto τ (.locked plan))
  | listLocks {w : World κ} {τ : Token} {plan : Plan} (here : w.runs τ = .locked plan) :
      Step F w (w.goto τ (.scanning plan (w.db.objects.filter (·.artifact = .lock))))
  | checkPeers {w : World κ} {τ : Token} {plan : Plan} {locks : List Name}
      (here : w.runs τ = .scanning plan locks)
      (free : (blockers F.table ⟨τ, none⟩ [.lock, .staging]
        (locks ++ w.db.objects.filter (·.artifact = .staging))).blockers = []) :
      Step F w (w.goto τ (.passed plan))
  | stage {w : World κ} {τ : Token} {plan : Plan} (here : w.runs τ = .passed plan) :
      Step F w ((w.create (F.staging τ)).goto τ (.staged plan))
  | release {w : World κ} {τ : Token} {plan : Plan} (here : w.runs τ = .staged plan) :
      Step F w ((w.drop (F.lock τ)).goto τ (.relooking plan []))
  /-- The lock would not go; the run goes on without it. -/
  | abandonLock {w : World κ} {τ : Token} {plan : Plan} (here : w.runs τ = .staged plan) :
      Step F w (w.goto τ (.relooking plan []))
  | relook {w : World κ} {τ : Token} {plan : Plan} {seen : List (Db κ)}
      (here : w.runs τ = .relooking plan seen) :
      Step F w (w.goto τ (.relooking plan (seen ++ [w.db])))
  | confirm {w : World κ} {τ : Token} {plan : Plan} {seen : List (Db κ)} {st : DestState}
      (here : w.runs τ = .relooking plan seen) (all : seen.length = 6)
      (found : destState F.cursor (F.bound τ) (moments seen) = .ok st)
      (still : watermarkMoved plan.watermark st.watermark = false) :
      Step F w (w.goto τ (.confirmed plan))
  | split {w : World κ} {τ : Token} {plan : Plan} {stmts : Statements κ}
      (here : w.runs τ = .confirmed plan)
      (splits : Splits (w.log (F.source τ)) (plan.admits F.cursor) stmts) :
      Step F w (w.goto τ (.loading plan stmts []))
  | read {w : World κ} {τ : Token} {plan : Plan} {before after : Statements κ} {stmt : κ → Bool}
      {rows : List κ} (here : w.runs τ = .loading plan (before ++ stmt :: after) rows) :
      Step F w (w.goto τ (.loading plan (before ++ after)
        (rows ++ (w.log (F.source τ)).filter fun v => stmt v && plan.admits F.cursor v)))
  | land {w : World κ} {τ : Token} {plan : Plan} {rows : List κ} {db : Db κ}
      (here : w.runs τ = .loading plan [] rows) (some_rows : rows ≠ [])
      (landed : finalize F.cursor (F.bound τ) w.db τ.kind plan.mode (F.staging τ)
        (rows.map fun v => (F.source τ, v)) = some db) :
      Step F w ({ w with db := db }.goto τ .ceased)
  /-- A refusal, a failure, a load without rows, or a crash. -/
  | leave {w : World κ} {τ : Token} : Step F w (w.goto τ .ceased)
  | sweep {w : World κ} {τ : Token} {n : Name} (here : w.runs τ = .ceased)
      (own : n.token = some τ) :
      Step F w (w.drop n)

/-- Any number of moves. -/
abbrev Reaches (F : Fleet κ) : World κ → World κ → Prop := Relation.ReflTransGen (Step F)

end Apitap.Append
