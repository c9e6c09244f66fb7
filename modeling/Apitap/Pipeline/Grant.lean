import Apitap.Foundation.Semaphore
import Apitap.Wire.Pgoutput
import Mathlib.Data.Finset.Range
import Mathlib.Algebra.BigOperators.Group.Finset.Basic
import Mathlib.Data.List.Sort

/-!
# The pipe budget of many tables

Tables share a budget of pipes behind one semaphore. A table asks for what it wants at once,
fits that to its spans any number of times, and gives everything back when it ends. What one
does between two waits is taken step by step, and the others' steps may come between.
-/

namespace Apitap.Pipeline

open Foundation

/-- A table and the planner's row estimate; below 0 it is unknown. -/
structure TableJob where
  table : String
  estRows : Int

def rowsPerPipe : Int := 32 * 1024

/-- How many pipes a table wants. -/
def desiredPipes (estRows : Int) (budget tablePipeCap : Nat) : Nat :=
  let cap := max (min budget tablePipeCap) 1
  if estRows < 0 then cap else min (max (estRows / rowsPerPipe).toNat 1) cap

/-- `as u32`. -/
def asU32 (n : Nat) : Nat := n % 2 ^ 32

/-- The most permits a semaphore takes: `usize::MAX >> 3`. -/
def maxPermits : Nat := 2 ^ 61 - 1

/-- The permits a table holds, by the sizes they came in, and their count. -/
structure Grant where
  held : List Nat
  count : Nat

/-- What a turn of a resize's loops comes to: permits given back, one more taken, the end, or
no permit to give back. -/
inductive Turn where
  | released (n : Nat) (g : Grant)
  | grew (sem : Semaphore Nat) (g : Grant)
  | done
  | panicked

namespace Grant

/-- A turn of the loop that shrinks, then of the loop that grows. -/
def turn (g : Grant) (sem : Semaphore Nat) (target : Nat) : Turn :=
  if target < g.count then
    let take := g.count - target
    match g.held.getLast? with
    | none => .panicked
    | some n =>
        if n ≤ take then .released n ⟨g.held.dropLast, g.count - n⟩
        else .released take ⟨g.held.dropLast ++ [n - take], g.count - take⟩
  else if g.count < target then
    match sem.tryAcquire with
    | some sem => .grew sem ⟨g.held ++ [1], g.count + 1⟩
    | none => .done
  else .done

end Grant

inductive Outcome where
  | loaded (rows parallel : Nat)
  | error (e : Error)
  | panicked (text : String)

structure TableResult where
  table : String
  rows : Nat
  parallel : Nat
  error : Option String

/-- A table's line of the report. -/
def tableResult (job : TableJob) (granted : Nat) : Outcome → TableResult
  | .loaded rows parallel => ⟨job.table, rows, parallel, none⟩
  | .error e => ⟨job.table, 0, granted, some e.display⟩
  | .panicked text =>
      ⟨job.table, 0, granted, some (Error.transfer ("panicked: " ++ text)).display⟩

/-- Where a table stands: not begun, in the queue, running with a grant, within a resize that
began with `from_` permits, or ended. -/
inductive Phase where
  | fresh
  | waiting (want : Nat)
  | running (granted : Nat) (g : Grant)
  | resizing (granted : Nat) (g : Grant) (from_ target : Nat)
  | ended

namespace Phase

def held : Phase → Nat
  | .running _ g => g.held.sum
  | .resizing _ g _ _ => g.held.sum
  | _ => 0

def acquired (want : Nat) : Phase := .running want ⟨[asU32 want], want⟩

/-- A table that waited is served. -/
def wake : Phase → Phase
  | .waiting want => acquired want
  | p => p

end Phase

/-- A run: the semaphore, the tables by their place, the results so far. -/
structure ManyRun where
  sem : Semaphore Nat
  tables : Nat → Phase
  results : List (Nat × TableResult)

namespace ManyRun

/-- The jobs in the order they are begun: the largest first, an unknown one as the largest. -/
def largestFirst (jobs : List TableJob) : List TableJob :=
  let key := fun j : TableJob => if j.estRows < 0 then 2 ^ 63 - 1 else j.estRows
  jobs.mergeSort fun a b => decide (key b ≤ key a)

/-- A run at its start; a semaphore does not take every budget. -/
def start (budget : Nat) : Option ManyRun :=
  if maxPermits < budget then none else some ⟨.new budget, fun _ => .fresh, []⟩

/-- The served go on. -/
def wakeAll : List (Nat × Nat) → (Nat → Phase) → Nat → Phase
  | [], tables => tables
  | w :: ws, tables => wakeAll ws (Function.update tables w.1 (tables w.1).wake)

variable (s : ManyRun)

def set (i : Nat) (p : Phase) : ManyRun := { s with tables := Function.update s.tables i p }

/-- Permits come back to the semaphore. -/
def release (n : Nat) : ManyRun :=
  { s with sem := (s.sem.release n).2, tables := wakeAll (s.sem.release n).1 s.tables }

/-- A grant is dropped, permit by permit. -/
def dropped : List Nat → ManyRun → ManyRun
  | [], s => s
  | n :: ns, s => dropped ns (s.release n)

/-- A table ends: its result is there, its permits go back. -/
def finish (i : Nat) (job : TableJob) (granted : Nat) (g : Grant) (out : Outcome) : ManyRun :=
  dropped g.held ⟨s.sem, Function.update s.tables i .ended,
    s.results ++ [(i, tableResult job granted out)]⟩

/-- A table asks for its permits. -/
def ask (i want : Nat) : ManyRun :=
  let r := s.sem.acquire i (asU32 want)
  { s with
    sem := r.1
    tables := Function.update s.tables i (if r.2 then .acquired want else .waiting want) }

/-- The turn of a resize, applied. -/
def turned (i : Nat) (job : TableJob) (granted from_ target : Nat) (g : Grant) :
    Turn → ManyRun
  | .released n g => (s.set i (.resizing granted g from_ target)).release n
  | .grew sem g => { s with sem := sem }.set i (.resizing granted g from_ target)
  | .done => s.set i (.running granted g)
  | .panicked => s.finish i job granted g (.panicked "grant holds at least one permit")

inductive Step (jobs : List TableJob) (budget cap : Nat) : ManyRun → ManyRun → Prop
  | begin_ {s : ManyRun} {i : Nat} {job : TableJob} (is : jobs[i]? = some job)
      (fresh : s.tables i = .fresh) :
      Step jobs budget cap s (s.ask i (desiredPipes job.estRows budget cap))
  | resize {s : ManyRun} {i granted : Nat} {g : Grant} (target : Nat)
      (runs : s.tables i = .running granted g) :
      Step jobs budget cap s (s.set i (.resizing granted g g.count (max target 1)))
  | turn {s : ManyRun} {i granted from_ target : Nat} {job : TableJob} {g : Grant}
      (is : jobs[i]? = some job) (within : s.tables i = .resizing granted g from_ target) :
      Step jobs budget cap s (s.turned i job granted from_ target g (g.turn s.sem target))
  | finish {s : ManyRun} {i granted : Nat} {job : TableJob} {g : Grant} (out : Outcome)
      (is : jobs[i]? = some job) (runs : s.tables i = .running granted g) :
      Step jobs budget cap s (s.finish i job granted g out)

/-- The states a run can come to. -/
abbrev Reaches (jobs : List TableJob) (budget cap : Nat) : ManyRun → ManyRun → Prop :=
  Relation.ReflTransGen (Step (largestFirst jobs) budget cap)

/-- Every table has ended: the results are returned. -/
def Returned (jobs : List TableJob) : Prop := ∀ i < jobs.length, s.tables i = .ended

end ManyRun

end Apitap.Pipeline
