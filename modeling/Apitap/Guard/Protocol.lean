import Apitap.Foundation.Parallel
import Apitap.Guard.Naming

/-!
# Announce, check, release

A drain opens its lease rows, announces itself on every member table, then checks every
member's peers; a bulk run announces and checks one table, without a lease. A check
collects a peer that is provably dead: it claims the peer's lapsed row, sweeps its
scratch, then drops its markers. Each call to the destination may fail without an
effect, or fail after it.
-/

namespace Apitap.Guard

/-! ## Calls to the destination -/

/-- What a lease row says of its owner. -/
structure Lease where
  /-- Seconds of life left, by the destination's clock. -/
  expiresIn : Int
  collected : Bool

/-- May this peer's markers be collected? -/
def Lease.lapsed (l : Lease) : Bool := l.expiresIn ≤ 0 || l.collected

/-- The outcome of trying to take a lapsed lease. -/
inductive Claim where
  | taken
  | refused
  | absent
deriving DecidableEq

/-- What a check does with this run's own leftovers. -/
inductive Mine where
  | keep
  | deleteLeftovers
deriving DecidableEq

/-- Where a run stands with a table; no call of the source. -/
inductive Mark where
  /-- Its announcement is complete. -/
  | announced
  /-- Its check returned without a refusal. -/
  | passed
  /-- Its release begins. -/
  | leaving
deriving DecidableEq

inductive Call where
  | list (bare : Table) (kinds : List Artifact)
  | createMarker (n : Name)
  | dropObject (n : Name)
  | leaseOpen (keys : List Table)
  | leaseGet (key : Table) (token : Token)
  | leaseClaim (key : Table) (token : Token)
  /-- Delete the caller's own row. -/
  | leaseClose (key : Table)
  | sweepRun (bare : Table) (token : Token)
  /-- Drop the caller's own objects that are tied to no table. -/
  | closeRun
  /-- Take one's own row for the transaction: it exists and is not collected. -/
  | lockRow (key : Table)
  | commit
  /-- An open transaction is dropped, uncommitted. -/
  | rollback
  | note (t : Table) (m : Mark)
deriving DecidableEq

inductive Answer where
  | names (listed : List Name)
  | lease (l : Option Lease)
  | claim (c : Claim)
  | held (h : Bool)
  | done
  | error

abbrev Client (α : Type) := Prog Call Answer α

/-- Why a run does not proceed. -/
inductive Refusal where
  /-- A blocker that cannot be collected, or whose owner is alive. -/
  | blocked (b : Blocker) (lease : Option Lease)
  /-- The claim is taken, but these could not be dropped. -/
  | notDropped (token : Token) (names : List Name)
  | noLongerHolds (keys : List Table)
  | store

/-- One engine's spelling of the guard. -/
structure Store where
  /-- The kinds a scan classifies. -/
  scanKinds : List Artifact
  /-- How this engine spells a marker. -/
  spelling : Artifact → Artifact
  /-- What its bulk lane does with its own leftovers. -/
  bulkMine : Mine
  seen : spelling .lock ∈ scanKinds
  safe : bulkMine = .deleteLeftovers → spelling .lock = .lock

namespace Store

variable (S : Store)

def marker (bare : Table) (run : RunId) (a : Artifact) : Name :=
  ⟨bare, S.spelling a, some run.token⟩

/-! ## The guard -/

/-- Drop objects, whatever the answers. -/
def dropAll : List Name → Client Unit
  | [] => pure ()
  | n :: ns => do
      let _ ← Prog.ask (.dropObject n)
      dropAll ns

/-- Drop objects, and say which would not go. -/
def dropEach : List Name → Client (List Name)
  | [] => pure []
  | n :: ns => do
      let ans ← Prog.ask (.dropObject n)
      let failed ← dropEach ns
      match ans with
      | .done => pure failed
      | _ => pure (n :: failed)

/-- Create the markers that are left; a half-announcement is taken back. -/
def announceFrom : List Name → List Name → Client (Option (List Name))
  | [], names => pure (some names)
  | n :: ns, names => do
      match ← Prog.ask (.createMarker n) with
      | .done => announceFrom ns (names ++ [n])
      | _ =>
          dropAll names
          pure none

/-- Create this run's markers on a table, empty. -/
def announce (bare : Table) (run : RunId) : Client (Option (List Name)) :=
  announceFrom ((markers run.token.kind).map (S.marker bare run)) []

/-- Take a dead peer's claim, sweep its scratch, then drop its markers. -/
def collect (bare : Table) (tok : Token) (bs : List Blocker) : Client (Except Refusal Unit) := do
  match ← Prog.ask (.leaseGet bare tok) with
  | .lease (some l) =>
      if l.lapsed then
        match ← Prog.ask (.leaseClaim bare tok) with
        | .claim .taken =>
            match ← Prog.ask (.sweepRun bare tok) with
            | .done =>
                let failed ← dropEach (bs.map (·.name))
                if failed = [] then pure (.ok ()) else pure (.error (.notDropped tok failed))
            | _ => pure (.error .store)
        | .claim .refused =>
            pure (.error (.blocked (bs.headD (.legacy ⟨bare, .lock, none⟩)) (some l)))
        | .claim .absent => pure (.error (.blocked (bs.headD (.legacy ⟨bare, .lock, none⟩)) none))
        | _ => pure (.error .store)
      else pure (.error (.blocked (bs.headD (.legacy ⟨bare, .lock, none⟩)) (some l)))
  | .lease none => pure (.error (.blocked (bs.headD (.legacy ⟨bare, .lock, none⟩)) none))
  | _ => pure (.error .store)

def collectAll (bare : Table) : List (Token × List Blocker) → Client (Except Refusal Unit)
  | [] => pure (.ok ())
  | (tok, bs) :: rest => do
      match ← collect bare tok bs with
      | .ok () => collectAll bare rest
      | .error e => pure (.error e)

/-- Drop this run's own leftovers; the first failure ends it. -/
def dropLeftovers : List Name → Client (Except Refusal Unit)
  | [] => pure (.ok ())
  | n :: ns => do
      match ← Prog.ask (.dropObject n) with
      | .done => dropLeftovers ns
      | _ => pure (.error .store)

/-- Decide on one scan. A blocker that cannot be collected refuses before any lease row
is read. -/
def decideScan (bare : Table) (mine : Mine) (scan : Scan) : Client (Except Refusal Unit) :=
  match scan.blockers.find? fun b => collectable b = none with
  | some b => pure (.error (.blocked b none))
  | none => do
      match ← collectAll bare (byToken scan.blockers) with
      | .error e => pure (.error e)
      | .ok () =>
          if mine = .deleteLeftovers then dropLeftovers scan.mineLeftovers else pure (.ok ())

/-- Scan a table's neighbours and decide: proceed, collect the provably dead, or refuse. -/
def checkPeers (bare : Table) (run : RunId) (mine : Mine) : Client (Except Refusal Unit) := do
  match ← Prog.ask (.list bare S.scanKinds) with
  | .names listed => decideScan bare mine (blockers bare run S.scanKinds listed)
  | _ => pure (.error .store)

/-- Drop this run's markers; `true` when every one is gone. -/
def release (names : List Name) : Client Bool := do
  let failed ← dropEach names
  pure (decide (failed = []))

/-! ## A drain's tenure -/

/-- Per member: its scratch, then its markers, then, with the proof that these are gone,
its lease. -/
def giveBack (run : RunId) : List (Table × List Name) → Client Unit
  | [] => pure ()
  | (t, names) :: held => do
      match ← Prog.ask (.sweepRun t run.token) with
      | .done =>
          let _ ← Prog.ask (.note t .leaving)
          if ← release names then
            let _ ← Prog.ask (.leaseClose t)
            giveBack run held
          else giveBack run held
      | _ => giveBack run held

/-- The run's own objects first; while they stand every claim is kept. -/
def giveBackRun (run : RunId) (held : List (Table × List Name)) : Client Unit := do
  match ← Prog.ask .closeRun with
  | .done => giveBack run held
  | _ => pure ()

/-- Close rows of tables this run never put a marker on. -/
def neverAnnounced : List Table → Client Unit
  | [] => pure ()
  | t :: ts => do
      let _ ← Prog.ask (.leaseClose t)
      neverAnnounced ts

/-- Announce every member; the first failure gives everything back. -/
def announceEvery (run : RunId) :
    List Table → List (Table × List Name) → Client (Option (List (Table × List Name)))
  | [], held => pure (some held)
  | t :: rest, held => do
      match ← S.announce t run with
      | some names =>
          let _ ← Prog.ask (.note t .announced)
          announceEvery run rest (held ++ [(t, names)])
      | none =>
          neverAnnounced (t :: rest)
          giveBackRun run held
          pure none

/-- Check every member's peers. -/
def checkEvery (run : RunId) (held : List (Table × List Name)) : List Table → Client Bool
  | [] => pure true
  | t :: ts => do
      match ← S.checkPeers t run .keep with
      | .ok () =>
          let _ ← Prog.ask (.note t .passed)
          checkEvery run held ts
      | .error _ =>
          giveBackRun run held
          pure false

/-- Announce every member, then check every member. -/
def acquired (run : RunId) (tables : List Table) : Client (Option (List (Table × List Name))) := do
  match ← S.announceEvery run tables [] with
  | none => pure none
  | some held => if ← S.checkEvery run held tables then pure (some held) else pure none

/-- Lease first: the order that makes a dead run collectable and two live ones unable to
both proceed. -/
def acquire (run : RunId) (tables : List Table) : Client (Option (List (Table × List Name))) := do
  match ← Prog.ask (.leaseOpen tables) with
  | .done => S.acquired run tables
  | _ => pure none

/-- A drain: its tenure, given back at the end. Its units are programs of their own. -/
def drain (run : RunId) (tables : List Table) : Client Unit := do
  match ← S.acquire run tables with
  | some held => giveBackRun run held
  | none => pure ()

/-- One unit: every row of its tables is taken before anything is written, and held
until the commit. A return before the commit drops the transaction. -/
def unit (keys : List Table) : Client (Except Refusal Unit) :=
  match keys with
  | [] => do
      match ← Prog.ask .commit with
      | .done => pure (.ok ())
      | _ => pure (.error .store)
  | k :: rest => do
      match ← Prog.ask (.lockRow k) with
      | .held true => unit rest
      | .held false =>
          let _ ← Prog.ask .rollback
          pure (.error (.noLongerHolds keys))
      | _ =>
          let _ ← Prog.ask .rollback
          pure (.error .store)

/-- A bulk run, to the release of its announcement. Its staging is no marker: it holds
data, and stands before the lock goes. -/
def bulk (run : RunId) (t : Table) : Client Unit := do
  match ← S.announce t run with
  | none => pure ()
  | some names =>
      let _ ← Prog.ask (.note t .announced)
      match ← S.checkPeers t run S.bulkMine with
      | .ok () =>
          let _ ← Prog.ask (.note t .passed)
          let _ ← Prog.ask (.createMarker ⟨t, .staging, some run.token⟩)
          let _ ← Prog.ask (.note t .leaving)
          let _ ← release names
          pure ()
      | .error _ =>
          let _ ← Prog.ask (.note t .leaving)
          let _ ← release names
          pure ()

end Store

/-! ## The destination -/

structure Row where
  /-- Its life is over, by the destination's clock. -/
  lapsed : Bool
  collected : Bool
deriving DecidableEq

/-- What one run of the destination does to it, in order, newest first. -/
inductive Event where
  | claimed (key : Table) (token : Token)
  | committed (token : Token) (keys : List Table)
deriving DecidableEq

/-- A unit's transaction. -/
inductive Tx where
  /-- It holds no row yet. -/
  | fresh
  /-- The rows it holds. -/
  | live (keys : List Table)
  | ended
deriving DecidableEq

/-- A run, or one of its units. -/
inductive Proc where
  | run (token : Token)
  | unit (token : Token) (n : Nat)
deriving DecidableEq

def Proc.token : Proc → Token
  | .run token | .unit token _ => token

structure Dest where
  objects : List Name
  rows : Table → Token → Option Row
  tx : Proc → Tx
  events : List Event
  /-- What each run's last scan of a table listed. -/
  saw : Token → Table → Option (List Name)
  /-- Names their owners created and have not dropped since. -/
  up : List Name
  announced : List (Token × Table)
  passed : List (Token × Table)
  /-- Runs with a marker whose creation failed after taking effect, or a take-back whose
  drop failed. -/
  torn : List Token

namespace Dest

/-- A transaction that is not over, and the rows it holds. -/
def Open (s : Dest) (p : Proc) (keys : List Table) : Prop :=
  s.tx p = .live keys ∨ s.tx p = .fresh ∧ keys = []

/-- A unit of this run holds its row. -/
def Locked (s : Dest) (key : Table) (token : Token) : Prop :=
  ∃ p keys, p.token = token ∧ s.tx p = .live keys ∧ key ∈ keys

def setRow (s : Dest) (key : Table) (token : Token) (row : Option Row) : Dest :=
  { s with rows := fun k t => if k = key ∧ t = token then row else s.rows k t }

def setTx (s : Dest) (p : Proc) (tx : Tx) : Dest :=
  { s with tx := fun q => if q = p then tx else s.tx q }

def create (s : Dest) (n : Name) : Dest :=
  { s with objects := n :: s.objects, up := n :: s.up }

/-- An object goes; only its owner's drop takes it down. -/
def drop (s : Dest) (τ : Token) (n : Name) : Dest :=
  { s with
    objects := s.objects.filter (· ≠ n)
    up := if n.token = some τ then s.up.filter (· ≠ n) else s.up }

/-- A drop by its owner before the announcement is complete takes it back. -/
def takesBack (s : Dest) (τ : Token) (n : Name) : Bool :=
  n.token = some τ ∧ (τ, n.table) ∉ s.announced

/-- Rows that do not exist yet. -/
def openRows (s : Dest) (τ : Token) (keys : List Table) : Dest :=
  { s with rows := fun k t =>
      if t = τ ∧ k ∈ keys ∧ s.rows k t = none then some ⟨false, false⟩ else s.rows k t }

def claim (s : Dest) (key : Table) (token : Token) : Dest :=
  { s.setRow key token (some ⟨true, true⟩) with events := .claimed key token :: s.events }

def commit (s : Dest) (p : Proc) (keys : List Table) : Dest :=
  { s.setTx p .ended with events := .committed p.token keys :: s.events }

def note (s : Dest) (τ : Token) (t : Table) : Mark → Dest
  | .announced => { s with announced := (τ, t) :: s.announced }
  | .passed => { s with passed := (τ, t) :: s.passed }
  | .leaving => { s with passed := s.passed.filter (· ≠ (τ, t)) }

/-- What the destination does on its own: a lease runs out, a live run's keeper renews
it, a unit's connection ends. -/
inductive Drift : Dest → Dest → Prop
  | lapse {s : Dest} {k : Table} {τ : Token} {row : Row} (there : s.rows k τ = some row) :
      Drift s (s.setRow k τ (some { row with lapsed := true }))
  | renew {s : Dest} {k : Table} {τ : Token} {row : Row} (there : s.rows k τ = some row)
      (own : row.collected = false) : Drift s (s.setRow k τ (some { row with lapsed := false }))
  | hangUp {s : Dest} {p : Proc} : Drift s (s.setTx p .ended)

/-- How the destination may answer a process. -/
inductive Serve (p : Proc) : Dest → Call → Answer → Dest → Prop
  /-- One snapshot of the names beside a table. -/
  | listed {s : Dest} {t : Table} {kinds : List Artifact} {l : List Name}
      (all : ∀ n, n ∈ l ↔ n ∈ s.objects ∧ n.table = t ∧ n.artifact ∈ kinds) :
      Serve p s (.list t kinds) (.names l)
        { s with saw := fun τ u => if τ = p.token ∧ u = t then some l else s.saw τ u }
  | created {s : Dest} {n : Name} : Serve p s (.createMarker n) .done (s.create n)
  | createTorn {s : Dest} {n : Name} :
      Serve p s (.createMarker n) .error { s.create n with torn := p.token :: s.torn }
  | dropped {s : Dest} {n : Name} : Serve p s (.dropObject n) .done (s.drop p.token n)
  /-- It failed, with or without an effect. -/
  | dropUnheard {s : Dest} {n : Name} : Serve p s (.dropObject n) .error (s.drop p.token n)
  | dropFailed {s : Dest} {n : Name} :
      Serve p s (.dropObject n) .error
        { s with torn := if s.takesBack p.token n then p.token :: s.torn else s.torn }
  | opened {s : Dest} {keys : List Table} :
      Serve p s (.leaseOpen keys) .done (s.openRows p.token keys)
  /-- It failed with some of the rows written. -/
  | openFailed {s : Dest} {keys some : List Table} (sub : some ⊆ keys) :
      Serve p s (.leaseOpen keys) .error (s.openRows p.token some)
  | noLease {s : Dest} {k : Table} {τ : Token} (none : s.rows k τ = none) :
      Serve p s (.leaseGet k τ) (.lease .none) s
  | lease {s : Dest} {k : Table} {τ : Token} {row : Row} {l : Lease} (there : s.rows k τ = some row)
      (life : l.expiresIn ≤ 0 ↔ row.lapsed = true) (taken : l.collected = row.collected) :
      Serve p s (.leaseGet k τ) (.lease (some l)) s
  /-- A lapsed or collected row that no unit holds. -/
  | taken {s : Dest} {k : Table} {τ : Token} {row : Row} (there : s.rows k τ = some row)
      (dead : row.lapsed = true ∨ row.collected = true) (free : ¬ s.Locked k τ) :
      Serve p s (.leaseClaim k τ) (.claim .taken) (s.claim k τ)
  | takenUnheard {s : Dest} {k : Table} {τ : Token} {row : Row} (there : s.rows k τ = some row)
      (dead : row.lapsed = true ∨ row.collected = true) (free : ¬ s.Locked k τ) :
      Serve p s (.leaseClaim k τ) .error (s.claim k τ)
  | refused {s : Dest} {k : Table} {τ : Token} {row : Row} (there : s.rows k τ = some row)
      (held : row.lapsed = false ∨ s.Locked k τ) : Serve p s (.leaseClaim k τ) (.claim .refused) s
  | absent {s : Dest} {k : Table} {τ : Token} (none : s.rows k τ = none) :
      Serve p s (.leaseClaim k τ) (.claim .absent) s
  /-- A close is not waited for; it may fail. -/
  | closed {s : Dest} {k : Table} {ans : Answer} (free : ¬ s.Locked k p.token) :
      Serve p s (.leaseClose k) ans (s.setRow k p.token none)
  | closeFailed {s : Dest} {k : Table} {ans : Answer} : Serve p s (.leaseClose k) ans s
  | swept {s : Dest} {t : Table} {τ : Token} : Serve p s (.sweepRun t τ) .done s
  | runClosed {s : Dest} : Serve p s .closeRun .done s
  /-- The row is there, is not collected, and no other unit holds it. -/
  | locked {s : Dest} {k : Table} {row : Row} {keys : List Table}
      (there : s.rows k p.token = some row) (own : row.collected = false)
      (open_ : s.Open p keys)
      (free : ∀ q, q ≠ p → ∀ held, q.token = p.token → s.tx q = .live held → k ∉ held) :
      Serve p s (.lockRow k) (.held true) (s.setTx p (.live (k :: keys)))
  /-- No row, or a collected one. The transaction stays open. -/
  | notOwner {s : Dest} {k : Table}
      (gone : ∀ row, s.rows k p.token = some row → row.collected = true) :
      Serve p s (.lockRow k) (.held false) s
  | committed {s : Dest} {keys : List Table} (open_ : s.Open p keys) :
      Serve p s .commit .done (s.commit p keys)
  | commitUnheard {s : Dest} {keys : List Table} (open_ : s.Open p keys) :
      Serve p s .commit .error (s.commit p keys)
  /-- Nobody waits for the answer. -/
  | rolled {s : Dest} {ans : Answer} : Serve p s .rollback ans (s.setTx p .ended)
  | rolledBack {s : Dest} {c : Call} (asked : c = .commit ∨ ∃ k, c = .lockRow k) :
      Serve p s c .error (s.setTx p .ended)
  /-- Any other call may fail without an effect. -/
  | failed {s : Dest} {c : Call} (asked : (∀ n, c ≠ .dropObject n) ∧ (∀ t m, c ≠ .note t m)) :
      Serve p s c .error s
  | noted {s : Dest} {t : Table} {m : Mark} : Serve p s (.note t m) .done (s.note p.token t m)

/-- The destination, called by every run and every unit. -/
def shared : Shared Proc Dest Call Answer := ⟨Drift, Serve⟩

/-- Nothing of any run yet; names of older versions may stand. -/
structure Start (s : Dest) : Prop where
  objects : ∀ n ∈ s.objects, n.token = none
  rows : ∀ k τ, s.rows k τ = none
  tx : ∀ p, s.tx p = .fresh
  events : s.events = []
  saw : ∀ τ t, s.saw τ t = none
  up : s.up = []
  announced : s.announced = []
  passed : s.passed = []
  torn : s.torn = []

end Dest

/-- Any number of runs on one destination, each with its parent, its tables and its
units. -/
structure Fleet where
  store : Store
  parent : Token → Option Token
  tables : Token → List Table
  /-- Two members never share a destination. -/
  distinct : ∀ τ, (tables τ).Nodup
  units : Token → Nat → List Table

namespace Fleet

variable (F : Fleet)

def runId (τ : Token) : RunId := ⟨τ, F.parent τ⟩

/-- What each process does from its start. -/
def program : Proc → Client Unit
  | .run τ =>
      if τ.kind = .cdc then F.store.drain (F.runId τ) (F.tables τ)
      else match F.tables τ with
        | t :: _ => F.store.bulk (F.runId τ) t
        | [] => pure ()
  | .unit τ n => do
      let _ ← Store.unit (F.units τ n)
      pure ()

end Fleet

/-! ## The calls of each process -/

/-- A unit takes rows and commits; a run does the rest, and creates only its own names. -/
def Kind : Proc → Call → Prop
  | .run τ, .createMarker n => n.token = some τ
  | .run _, .lockRow _ => False
  | .run _, .commit => False
  | .run _, .rollback => False
  | .run _, _ => True
  | .unit _ _, .lockRow _ => True
  | .unit _ _, .commit => True
  | .unit _ _, .rollback => True
  | .unit _ _, _ => False

/-- A run's calls once its rows are open. -/
def Call.Inner (τ : Token) : Call → Prop
  | .createMarker n => n.token = some τ
  | .lockRow _ | .commit | .rollback | .leaseOpen _ => False
  | _ => True

theorem Kind.of_inner {τ : Token} {c : Call} (inner : c.Inner τ) : Kind (.run τ) c := by
  cases c <;> trivial

/-- The calls a check of peers makes. -/
def Call.Peers : Call → Prop
  | .list _ _ | .leaseGet _ _ | .leaseClaim _ _ | .sweepRun _ _ | .dropObject _ => True
  | _ => False

/-- Drops of these names. -/
def Call.Drops (names : List Name) (c : Call) : Prop := ∃ n ∈ names, c = .dropObject n

theorem Call.Drops.of_mem {names : List Name} (n : Name) (mem : n ∈ names) :
    Call.Drops names (.dropObject n) := ⟨n, mem, rfl⟩

theorem Call.Peers.inner {τ : Token} {c : Call} (peers : c.Peers) : c.Inner τ := by
  cases c <;> trivial

namespace Store

variable {S : Store} {run : RunId} {C : Call → Prop}

theorem only_dropAll (ns : List Name) (kind : ∀ n ∈ ns, C (.dropObject n)) :
    (dropAll ns).Only C := by
  induction ns with
  | nil => exact .pure ()
  | cons n ns ih =>
      exact .call (kind n List.mem_cons_self) fun _ => ih fun m mem =>
        kind m (List.mem_cons_of_mem _ mem)

theorem only_dropEach (ns : List Name) (kind : ∀ n ∈ ns, C (.dropObject n)) :
    (dropEach ns).Only C := by
  induction ns with
  | nil => exact .pure []
  | cons n ns ih =>
      have rest := ih fun m mem => kind m (List.mem_cons_of_mem _ mem)
      refine .call (kind n List.mem_cons_self) fun ans => rest.bind fun failed => ?_
      cases ans <;> exact .pure _

theorem only_dropLeftovers (ns : List Name) (kind : ∀ n ∈ ns, C (.dropObject n)) :
    (dropLeftovers ns).Only C := by
  induction ns with
  | nil => exact .pure _
  | cons n ns ih =>
      refine .call (kind n List.mem_cons_self) fun ans => ?_
      cases ans with
      | done => exact ih fun m mem => kind m (List.mem_cons_of_mem _ mem)
      | _ => exact .pure _

theorem only_collect (bare : Table) (tok : Token) (bs : List Blocker) :
    (collect bare tok bs).Only Call.Peers := by
  refine .call trivial fun ans => ?_
  match ans with
  | .lease (some l) =>
      show Prog.Only _ (ite _ _ _)
      split
      · refine .call trivial fun ans => ?_
        match ans with
        | .claim .taken =>
            refine .call trivial fun ans => ?_
            match ans with
            | .done =>
                refine (only_dropEach _ fun _ _ => trivial).bind fun failed => ?_
                show Prog.Only _ (ite _ _ _)
                split <;> exact .pure _
            | .names _ | .lease _ | .claim _ | .held _ | .error => exact .pure _
        | .claim .refused | .claim .absent => exact .pure _
        | .names _ | .lease _ | .held _ | .done | .error => exact .pure _
      · exact .pure _
  | .lease none => exact .pure _
  | .names _ | .claim _ | .held _ | .done | .error => exact .pure _

theorem only_collectAll (bare : Table) (groups : List (Token × List Blocker)) :
    (collectAll bare groups).Only Call.Peers := by
  induction groups with
  | nil => exact .pure _
  | cons group rest ih =>
      refine (only_collect bare group.1 group.2).bind fun out => ?_
      match out with
      | .ok () => exact ih
      | .error _ => exact .pure _

theorem only_decideScan (bare : Table) (mine : Mine) (scan : Scan) :
    (decideScan bare mine scan).Only Call.Peers := by
  unfold decideScan
  split
  · exact .pure _
  · refine (only_collectAll bare _).bind fun out => ?_
    match out with
    | .error _ => exact .pure _
    | .ok () =>
        show Prog.Only _ (ite _ _ _)
        split
        · exact only_dropLeftovers _ fun _ _ => trivial
        · exact .pure _

theorem only_checkPeers (bare : Table) (mine : Mine) :
    (S.checkPeers bare run mine).Only Call.Peers := by
  refine .call trivial fun ans => ?_
  match ans with
  | .names listed => exact only_decideScan bare mine _
  | .lease _ | .claim _ | .held _ | .done | .error => exact .pure _

theorem only_announceFrom (ns names : List Name) (own : ∀ n ∈ ns, n.token = some run.token) :
    (announceFrom ns names).Only (Call.Inner run.token) := by
  induction ns generalizing names with
  | nil => exact .pure _
  | cons n ns ih =>
      refine .call (own n List.mem_cons_self) fun ans => ?_
      cases ans with
      | done => exact ih _ fun m mem => own m (List.mem_cons_of_mem _ mem)
      | _ => exact (only_dropAll names fun _ _ => trivial).bind fun _ => .pure _

theorem markers_own {t : Table} {n : Name}
    (mem : n ∈ (markers run.token.kind).map (S.marker t run)) :
    n.table = t ∧ n.token = some run.token := by
  obtain ⟨a, -, rfl⟩ := List.mem_map.mp mem
  exact ⟨rfl, rfl⟩

theorem only_announce (t : Table) : (S.announce t run).Only (Call.Inner run.token) :=
  only_announceFrom _ _ fun _ mem => (markers_own mem).2

theorem only_release (names : List Name) : (release names).Only (Call.Inner run.token) :=
  (only_dropEach names fun _ _ => trivial).bind fun _ => .pure _

theorem only_giveBack (held : List (Table × List Name)) :
    (giveBack run held).Only (Call.Inner run.token) := by
  induction held with
  | nil => exact .pure ()
  | cons member held ih =>
      refine .call trivial fun ans => ?_
      cases ans with
      | done =>
          refine .call trivial fun _ => (only_release _).bind fun gone => ?_
          cases gone with
          | true => exact .call trivial fun _ => ih
          | false => exact ih
      | _ => exact ih

theorem only_giveBackRun (held : List (Table × List Name)) :
    (giveBackRun run held).Only (Call.Inner run.token) := by
  refine .call trivial fun ans => ?_
  cases ans with
  | done => exact only_giveBack held
  | _ => exact .pure ()

theorem only_neverAnnounced (ts : List Table) (kind : ∀ t, C (.leaseClose t)) :
    (neverAnnounced ts).Only C := by
  induction ts with
  | nil => exact .pure ()
  | cons t ts ih => exact .call (kind t) fun _ => ih

theorem only_announceEvery (ts : List Table) (held : List (Table × List Name)) :
    (S.announceEvery run ts held).Only (Call.Inner run.token) := by
  induction ts generalizing held with
  | nil => exact .pure _
  | cons t ts ih =>
      refine (only_announce t).bind fun out => ?_
      cases out with
      | some names => exact .call trivial fun _ => ih _
      | none =>
          exact (only_neverAnnounced _ fun _ => trivial).bind fun _ => (only_giveBackRun held).bind
            fun _ => .pure _

theorem only_checkEvery (held : List (Table × List Name)) (ts : List Table) :
    (S.checkEvery run held ts).Only (Call.Inner run.token) := by
  induction ts with
  | nil => exact .pure _
  | cons t ts ih =>
      refine ((only_checkPeers t _).mono fun _ => Call.Peers.inner).bind fun out => ?_
      match out with
      | .ok () => exact .call trivial fun _ => ih
      | .error _ => exact (only_giveBackRun held).bind fun _ => .pure _

theorem only_acquired (tables : List Table) :
    (S.acquired run tables).Only (Call.Inner run.token) := by
  refine (only_announceEvery tables []).bind fun out => ?_
  cases out with
  | none => exact .pure _
  | some held =>
      refine (only_checkEvery held tables).bind fun passed => ?_
      cases passed <;> exact .pure _

theorem only_drain (tables : List Table) : (S.drain run tables).Only (Kind (.run run.token)) := by
  refine Prog.Only.bind ?_ fun out => ?_
  · refine .call trivial fun ans => ?_
    cases ans with
    | done => exact (only_acquired tables).mono fun _ => Kind.of_inner
    | _ => exact .pure _
  · cases out with
    | some held => exact (only_giveBackRun held).mono fun _ => Kind.of_inner
    | none => exact .pure ()

theorem only_bulk (t : Table) : (S.bulk run t).Only (Call.Inner run.token) := by
  refine (only_announce t).bind fun out => ?_
  cases out with
  | none => exact .pure ()
  | some names =>
      refine .call trivial fun _ => ((only_checkPeers t _).mono fun _ =>
        Call.Peers.inner).bind fun out => ?_
      match out with
      | .ok () =>
          exact .call trivial fun _ => .call rfl fun _ => .call trivial fun _ =>
            (only_release names).bind fun _ => .pure ()
      | .error _ => exact .call trivial fun _ => (only_release names).bind fun _ => .pure ()

theorem only_unit {τ : Token} {n : Nat} (keys : List Table) :
    (unit keys).Only (Kind (.unit τ n)) := by
  induction keys with
  | nil =>
      refine .call trivial fun ans => ?_
      cases ans <;> exact .pure _
  | cons k keys ih =>
      refine .call trivial fun ans => ?_
      match ans with
      | .held true => exact ih
      | .held false => exact .call trivial fun _ => .pure _
      | .names _ | .lease _ | .claim _ | .done | .error => exact .call trivial fun _ => .pure _

end Store

theorem Fleet.only_program (F : Fleet) (p : Proc) : (F.program p).Only (Kind p) := by
  cases p with
  | run τ =>
      show Prog.Only _ (ite _ _ _)
      split
      · exact (Store.only_drain _ : Prog.Only (Kind (.run (F.runId τ).token)) _)
      · split
        · refine Prog.Only.mono ?_ fun _ => Kind.of_inner
          exact (Store.only_bulk _ : Prog.Only (Call.Inner (F.runId τ).token) _)
        · exact .pure ()
  | unit τ n => exact (Store.only_unit _).bind fun _ => .pure ()

end Apitap.Guard
