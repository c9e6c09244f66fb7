import Mathlib.Data.List.Dedup
import Mathlib.Logic.Function.Basic
import Mathlib.Logic.Relation

/-!
# A ClickHouse unit's time fence

ClickHouse has no transaction to open: a unit is a set of lease keys, the predicate every
write of it carries, and a deadline pinned at its open. A write that fails its predicate
writes nothing and says nothing. Units of one run go on side by side; server time, lease
rows and the client's clock move between any two of their steps.
-/

namespace Apitap.Clickhouse

abbrev Key := String

/-! ## The fence's verdicts -/

def pinnedPred (now e0 margin : Nat) : Bool := now + margin < e0

/-- The verdict of a pin read: the server's `now`, the lowest live `expires_at` among the
unclaimed rows, and how many of the keys those are, against the deadline carried so far. -/
def repin (now e owned keys margin : Nat) (prev : Option Nat) : Option Nat :=
  let live : Bool := owned = keys ∧ now + margin < e
  let continuous : Bool := match prev with
    | none => true
    | some p => now + margin < p
  if live && continuous then some e else none

def repinDue (elapsed budget : Nat) (force : Bool) : Bool := force || budget / 8 ≤ elapsed

/-- The reuse of a cached pin: its deadline, and what is left of its budget. -/
def reuseCached (e0 budget elapsed : Nat) : Option (Nat × Nat) :=
  if repinDue elapsed budget false then none else some (e0, budget - elapsed)

/-! ## The server -/

/-- This run's lease row for a key, times in microseconds of the server's clock. -/
structure Row where
  expires : Nat
  collected : Bool
deriving DecidableEq

structure Server where
  now : Nat
  rows : Key → Option Row

def Server.setRow (s : Server) (key : Key) (row : Row) : Server :=
  { s with rows := Function.update s.rows key (some row) }

def Server.ownerPred (s : Server) (margin : Nat) (key : Key) : Bool :=
  match s.rows key with
  | some row => !row.collected && s.now + margin < row.expires
  | none => false

def Server.pred (s : Server) (margin : Nat) (keys : List Key) (e0 : Nat) : Bool :=
  keys.all (s.ownerPred margin) && pinnedPred s.now e0 margin

def Server.live (s : Server) (keys : List Key) : List Nat :=
  keys.dedup.filterMap fun key =>
    match s.rows key with
    | some row => if row.collected then none else some row.expires
    | none => none

/-- What time and other processes do to the server. -/
inductive Server.Moves : Server → Server → Prop
  | time {s : Server} {t : Nat} (later : s.now ≤ t) : Moves s { s with now := t }
  /-- The keeper writes a new expiry, never over a claim. -/
  | renew {s : Server} {k : Key} {row : Row} {t : Nat} (there : s.rows k = some row)
      (own : row.collected = false) (later : row.expires ≤ t) :
      Moves s (s.setRow k { row with expires := t })
  /-- A collector read the row as lapsed; a renewal may have come in between. -/
  | claim {s : Server} {k : Key} {row : Row} {t : Nat} (there : s.rows k = some row) :
      Moves s (s.setRow k ⟨t, true⟩)
  | opened {s : Server} {k : Key} {t : Nat} (none : s.rows k = none) :
      Moves s (s.setRow k ⟨t, false⟩)

/-! ## Units -/

/-- The deadline, and when to look at it again by the client's clock. -/
structure Pin where
  e0 : Nat
  at_ : Nat
  budget : Nat

inductive Phase where
  | opened
  | running
  /-- Closed without a mark; a group's unit is to write it. -/
  | handed
  | closing
  | failed
deriving DecidableEq

structure ChUnit where
  keys : List Key
  pin : Pin
  /-- An owned statement was sent since the pin. -/
  owed : Bool
  phase : Phase
  /-- The units whose marks it writes; none when these are its own. -/
  members : List Nat
  fenced : Bool
  marked : List Key

/-- The server, the store one run holds, and every unit the run ever opened. -/
structure World where
  server : Server
  clock : Nat
  pins : List Key → Option Pin
  units : Nat → Option ChUnit

namespace World

def setUnit (w : World) (id : Nat) (u : ChUnit) : World :=
  { w with units := Function.update w.units id (some u) }

variable (margin : Nat) (w : World)

/-- One read of every key's row, decided by `repin`; a success goes to the cache. -/
def pin (keys : List Key) (prev : Option Nat) : Option (Pin × World) :=
  let live := w.server.live keys
  match repin w.server.now (live.min?.getD 0) live.length keys.dedup.length margin prev with
  | some e0 =>
      let pin : Pin := ⟨e0, w.clock, e0 - w.server.now - margin⟩
      some (pin, { w with pins := Function.update w.pins keys (some pin) })
  | none => none

/-- The last successful pin for these keys, while most of its budget is left. -/
def cachedPin (keys : List Key) : Option Pin :=
  match w.pins keys with
  | some c => (reuseCached c.e0 c.budget (w.clock - c.at_)).map fun (e0, budget) =>
      ⟨e0, w.clock, budget⟩
  | none => none

/-- `open_unit_at` of the ClickHouse store: with a deadline to continue, always a read. -/
def storeOpenUnitAt (keys : List Key) (prev : Option Nat) : Option (Pin × World) :=
  match prev with
  | none =>
      match w.cachedPin keys with
      | some p => some (p, w)
      | none => w.pin margin keys none
  | some p => w.pin margin keys (some p)

def openUnit (keys : List Key) : Option (Pin × World) := w.storeOpenUnitAt margin keys none

/-- `open_unit_at` of the run's destination: the trait's own, which ignores the deadline. -/
def openUnitAt (keys : List Key) (_prev : Option Nat) : Option (Pin × World) :=
  w.openUnit margin keys

end World

def deadline (members : List (Nat × ChUnit)) : Nat := (members.map (·.2.pin.e0)).min?.getD 0

def memberKeys (members : List (Nat × ChUnit)) : List Key := members.flatMap (·.2.keys)

/-- One step of a unit, or of its surroundings; `allowed` says in which states a group's
unit may open over these members. -/
inductive Step (margin : Nat) (allowed : World → List (Nat × ChUnit) → Prop) : World → World → Prop
  | server {w : World} {s : Server} (moves : w.server.Moves s) :
      Step margin allowed w { w with server := s }
  | tick {w : World} {t : Nat} (later : w.clock ≤ t) : Step margin allowed w { w with clock := t }
  | opens {w w' : World} {i : Nat} {k : Key} {p : Pin} (new : w.units i = none)
      (opened : w.openUnit margin [k] = some (p, w')) :
      Step margin allowed w (w'.setUnit i ⟨[k], p, false, .opened, [], false, []⟩)
  /-- A group's unit, over the members that applied. -/
  | opensGroup {w w' : World} {i : Nat} {members : List (Nat × ChUnit)} {p : Pin}
      (new : w.units i = none) (some_ : members ≠ [])
      (handed : ∀ m ∈ members, w.units m.1 = some m.2 ∧ m.2.phase = .handed)
      (within : allowed w members)
      (opened : w.openUnitAt margin (memberKeys members) (some (deadline members)) = some (p, w')) :
      Step margin allowed w
        (w'.setUnit i ⟨memberKeys members, p, false, .opened, members.map (·.1), false, []⟩)
  /-- `keep`, with a read that succeeds. -/
  | keeps {w w' : World} {i : Nat} {u : ChUnit} {force : Bool} {p : Pin}
      (there : w.units i = some u) (going : u.phase = .opened ∨ u.phase = .closing)
      (due : repinDue (w.clock - u.pin.at_) u.pin.budget force = true)
      (read : w.pin margin u.keys (if u.owed then some u.pin.e0 else none) = some (p, w')) :
      Step margin allowed w (w'.setUnit i { u with pin := p, owed := false })
  | sends {w : World} {i : Nat} {u : ChUnit} (there : w.units i = some u)
      (going : u.phase = .opened) (own : u.members = []) :
      Step margin allowed w (w.setUnit i { u with owed := true, phase := .running })
  /-- The server evaluates the predicate for one part of it. -/
  | part {w : World} {i : Nat} {u : ChUnit} (there : w.units i = some u)
      (going : u.phase = .running) :
      Step margin allowed w
        (w.setUnit i { u with fenced := u.fenced || !w.server.pred margin u.keys u.pin.e0 })
  | done {w : World} {i : Nat} {u : ChUnit} (there : w.units i = some u)
      (going : u.phase = .running) : Step margin allowed w (w.setUnit i { u with phase := .opened })
  | fails {w : World} {i : Nat} {u : ChUnit} (there : w.units i = some u)
      (going : u.phase ≠ .handed) : Step margin allowed w (w.setUnit i { u with phase := .failed })
  | hands {w : World} {i : Nat} {u : ChUnit} (there : w.units i = some u)
      (going : u.phase = .opened) (own : u.members = []) :
      Step margin allowed w (w.setUnit i { u with phase := .handed })
  | closes {w : World} {i : Nat} {u : ChUnit} (there : w.units i = some u)
      (going : u.phase = .opened) : Step margin allowed w (w.setUnit i { u with phase := .closing })
  /-- One mark's INSERT writes its row. -/
  | marks {w : World} {i : Nat} {u : ChUnit} {k : Key} (there : w.units i = some u)
      (going : u.phase = .closing) (own : k ∈ u.keys)
      (owner : w.server.pred margin u.keys u.pin.e0 = true) :
      Step margin allowed w (w.setUnit i { u with owed := true, marked := k :: u.marked })
  /-- Every mark in one INSERT, each row fenced by its own lease row. -/
  | marksAll {w : World} {i : Nat} {u : ChUnit} (there : w.units i = some u)
      (going : u.phase = .closing) :
      Step margin allowed w (w.setUnit i { u with
        owed := true
        marked := (u.keys.filter fun key =>
          w.server.ownerPred margin key && pinnedPred w.server.now u.pin.e0 margin) ++ u.marked })

/-- Runs in which each group's unit opens in a state that is allowed. -/
abbrev Reaches (margin : Nat) (allowed : World → List (Nat × ChUnit) → Prop) :
    World → World → Prop :=
  Relation.ReflTransGen (Step margin allowed)

structure World.Start (w : World) : Prop where
  pins : ∀ keys, w.pins keys = none
  units : ∀ id, w.units id = none

end Apitap.Clickhouse
