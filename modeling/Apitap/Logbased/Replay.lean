import Apitap.Logbased.Drain

/-!
# The one replay rule

A changelog destination appends every event of a window under the window's start,
numbered by its seq. A window can be applied more than once, and a replay is not
the same window: the stream cannot seek, so a re-drain from the same start may end
sooner, later, or carry nothing of this table at all. `replayPlan` alone decides
what a window appends at a stamp, under which seq, what it trims first and whether
it leaves a marker.
-/

namespace Apitap

def u32Max : Nat := 4294967295

/-- Addition of `UInt32` values that reports an overflow. -/
def checkedAdd (a b : Nat) : Option Nat := if a + b ≤ u32Max then some (a + b) else none

/-- A count as a `UInt32`. -/
def u32Of (n : Nat) : Option Nat := if n ≤ u32Max then some n else none

theorem checkedAdd_eq_some {a b c : Nat} :
    checkedAdd a b = some c ↔ a + b ≤ u32Max ∧ a + b = c := by
  simp [checkedAdd]

theorem u32Of_bind_checkedAdd {n base c : Nat} :
    (u32Of n).bind (checkedAdd base) = some c ↔ base + n ≤ u32Max ∧ base + n = c := by
  simp only [u32Of]
  split
  · rw [Option.bind_some, checkedAdd_eq_some]
  · refine iff_of_false nofun ?_
    omega

/-- The destination's record of the last append attempt at a table. -/
structure Pending where
  start : Nat
  /-- `none` when 0.56.0 wrote it. -/
  seqBase : Option Nat
deriving DecidableEq, Repr

/-- The base the facts are counted from: a legacy attempt numbered from 0. -/
def Pending.queryBase (p : Pending) : Nat := p.seqBase.getD 0

/-- How many non-baseline rows a stamp holds, and their highest seq. -/
structure Landed where
  count : Nat
  maxSeq : Option Nat
deriving DecidableEq, Repr

structure StampFacts where
  /-- Every non-baseline row. -/
  all : Landed
  /-- The ones at or above the attempt's base. -/
  fromBase : Landed
  /-- How many distinct seqs `all` holds. -/
  distinctSeq : Nat
deriving DecidableEq, Repr

/-- The marker an attempt writes before it appends. -/
structure MarkerRow where
  start : Nat
  seqBase : Nat
  «end» : Nat
  events : Nat
deriving DecidableEq, Repr

/-- One table's changelog apply for one window: trim, mark, append, watermark. -/
structure ReplayPlan where
  stamp : Nat
  seqBase : Nat
  skip : Nat
  events : Nat
  trimFrom : Option Nat
  mark : Bool
  watermark : Nat
deriving DecidableEq, Repr

/-- The seq of the event at an ordinal. -/
def ReplayPlan.seqOf (plan : ReplayPlan) (ordinal : Nat) : Nat := plan.seqBase + ordinal

/-- The marker to write before the append, when there is one. -/
def ReplayPlan.marker (plan : ReplayPlan) : Option MarkerRow :=
  if plan.mark then some ⟨plan.stamp, plan.seqBase, plan.watermark, plan.events⟩ else none

namespace Replay

def overflow (table : String) (id : WindowId) (nEv base : Nat) : String :=
  s!"log_based: {table}: the window at {id.start} would number its events past " ++
    s!"_apitap_seq's range ({base} + {nEv} > {u32Max})"

def rewound (table : String) (p : Pending) (id : WindowId) : String :=
  s!"log_based: {table}: the destination records an append attempt at position {p.start}, " ++
    s!"past this window's start {id.start} — the watermark was moved backwards. Either put " ++
    s!"it back, or delete this table's rows with _apitap_lsn >= {id.start} AND _apitap_op != " ++
    "'B' together with its _apitap_cdc_pending rows, then re-run."

def noFacts (table : String) (id : WindowId) : String :=
  s!"log_based: {table}: internal: replaying the window at {id.start} needs the facts at its stamp"

def mixed (table : String) (id : WindowId) : String :=
  s!"log_based: {table}: a 0.56.0 run was interrupted while appending the " ++
    s!"window at {id.start}, and rows of an older version share that stamp; apitap " ++
    "cannot tell them apart. Inspect `SELECT _apitap_at, count(), " ++
    s!"min(_apitap_seq), max(_apitap_seq) FROM {table} WHERE _apitap_lsn = {id.start} " ++
    "AND _apitap_op != 'B' GROUP BY 1`, delete the newest group, clear this " ++
    "table's _apitap_cdc_pending rows, and re-run."

/-- The base a marker's attempt numbered from. -/
def markerBase (table : String) (p : Pending) (f : StampFacts) (id : WindowId) :
    Except String Nat :=
  match p.seqBase with
  | some b => .ok b
  | none => if f.all.count ≠ f.distinctSeq then .error (mixed table id) else .ok 0

/-- An interrupted attempt leaves `base..base+n`, and only `count = span` proves it. -/
def intactPrefix (base : Nat) (l : Landed) : Bool :=
  l.count = 0 ||
    ((u32Of (l.count - 1)).bind (checkedAdd base)).any fun last => l.maxSeq = some last

/-- What a rule decides: base, skip, trim and whether to leave a marker. -/
abbrev Decision := Nat × Nat × Option Nat × Bool

/-- R2: a previous attempt of this window. The log at the stamp becomes exactly
this window. -/
def resume (table : String) (base : Nat) (f : StampFacts) (id : WindowId) (nEv : Nat) :
    Except String Decision :=
  let n := f.fromBase.count
  if !intactPrefix base f.fromBase then .ok (base, 0, some base, nEv > 0)
  else if n ≤ nEv then .ok (base, n, none, n < nEv)
  else match (u32Of nEv).bind (checkedAdd base) with
    | some t => .ok (base, nEv, some t, false)
    | none => .error (overflow table id nEv base)

/-- R1: whatever is at the stamp belongs to another writer. Number above it. -/
def numberAbove (table : String) (f : Option StampFacts) (id : WindowId) (nEv : Nat) :
    Except String Decision :=
  match f.bind (·.all.maxSeq) with
  | none => .ok (0, 0, none, nEv > 0)
  | some m => match checkedAdd m 1 with
    | some base => .ok (base, 0, none, nEv > 0)
    | none => .error (overflow table id nEv m)

/-- R0 refuses a marker past this start: the watermark was moved backwards. -/
def rule (table : String) (p : Option Pending) (f : Option StampFacts) (id : WindowId)
    (nEv : Nat) : Except String Decision :=
  match p with
  | none => numberAbove table f id nEv
  | some p =>
      if id.start < p.start then .error (rewound table p id)
      else if p.start = id.start then
        match f with
        | none => .error (noFacts table id)
        | some f => (markerBase table p f id).bind fun base => resume table base f id nEv
      else numberAbove table f id nEv

end Replay

/-- The one replay rule. `tableEvents` is this table's event count in the window,
and 0 for a member the window does not carry: an absent member still runs it. -/
def replayPlan (table : String) (p : Option Pending) (f : Option StampFacts) (id : WindowId)
    (tableEvents : Nat) : Except String ReplayPlan :=
  (Replay.rule table p f id tableEvents).bind fun (base, skip, trimFrom, mark) =>
    match (u32Of tableEvents).bind (checkedAdd base) with
    | none => .error (Replay.overflow table id tableEvents base)
    | some _ => .ok ⟨id.start, base, skip, tableEvents, trimFrom, mark, id.end⟩

/-! What one run knows of a changelog table's stamps, so the facts are asked only
where rows can be. -/

structure Seen where
  pending : Option Pending
  ceiling : Option Nat
deriving DecidableEq, Repr

inductive Ask where
  | probe
  /-- The facts at this window's stamp, counted from a base. -/
  | facts (base : Nat)
  | nothing
deriving DecidableEq, Repr

/-- A run's memo of one table and source. -/
abbrev Memo := Option Seen

namespace Memo

def ask (memo : Memo) (id : WindowId) : Ask :=
  match memo with
  | none => .probe
  | some ⟨some p, ceiling⟩ =>
      if p.start = id.start then .facts p.queryBase
      else if ceiling.any (id.start ≤ ·) then .facts 0 else .nothing
  | some ⟨none, ceiling⟩ => if ceiling.any (id.start ≤ ·) then .facts 0 else .nothing

/-- The probe's answer. -/
def probed (pending : Option Pending) (ceiling : Option Nat) : Memo := some ⟨pending, ceiling⟩

def beforeProbe (table : String) : String :=
  s!"log_based: {table}: internal: a changelog plan before its probe"

/-- `replayPlan` over what this memo holds and the facts it asked for. -/
def plan (memo : Memo) (table : String) (f : Option StampFacts) (id : WindowId)
    (events : Nat) : Except String ReplayPlan :=
  match memo with
  | none => .error (beforeProbe table)
  | some s => replayPlan table s.pending f id events

/-- The unit holding `plan` committed: its marker is now the newest. -/
def committed (memo : Memo) (plan : ReplayPlan) : Memo :=
  if plan.mark then memo.map fun s => { s with pending := some ⟨plan.stamp, some plan.seqBase⟩ }
  else memo

/-- An apply or its close failed: the next window probes. -/
def forget (_memo : Memo) : Memo := none

end Memo

end Apitap
