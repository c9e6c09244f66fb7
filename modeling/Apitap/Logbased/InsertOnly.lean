import Apitap.Foundation.Versions
import Apitap.Logbased.Drain
import Apitap.Logbased.FlatWindow

/-!
# The insert-only apply

Into a ClickHouse table that keeps versions and tombstones, a window is two INSERTs:
its rows, and tombstones for the keys it removed, all at the window's end. Up to a
depth of windows are in flight at once; the watermark follows the ones that settled,
in order. Nothing a dead attempt wrote is taken back, and it may still be landing.
-/

namespace Apitap

open Foundation

/-- May this window ride the parallel arm? -/
def parallelSafe (bodies : List (TableWindow Collapsed)) : Bool :=
  bodies.all fun w => w.body.residue.isEmpty && !w.body.truncate

namespace InsertOnly

/-- A physical row: the key, `_apitap_ver`, and the row; a tombstone has none. -/
abbrev VerRow := Version Key (Option (List Cell))

def upsertRows (l : Layout) (c : Collapsed) (ver : Nat) : List VerRow :=
  c.upserts.map fun row => ⟨rowKeyRefs l.keyIdx row.toCells, ver, some row.toCells⟩

/-- The tombstones' INSERT. A key with a live upsert in this window keeps only that. -/
def tombstones (l : Layout) (c : Collapsed) (ver : Nat) : List VerRow :=
  let live := c.upserts.map fun row => rowKeyRefs l.keyIdx row.toCells
  (c.deletes.filter fun k => k ∉ live).map fun k => ⟨k, ver, none⟩

/-- The rows one table's part of a parallel-safe window writes. -/
def applyUnit (w : Option (TableWindow Collapsed)) (id : WindowId) : List VerRow :=
  match w with
  | none => []
  | some w => upsertRows w.layout w.body id.end ++ tombstones w.layout w.body id.end

/-- What a reader of the table sees: each key's newest row, unless it is a tombstone. -/
def visible (table : List VerRow) : Table := fun k => (newest table k).elim none Version.value

/-! ## The log -/

def upTo (events : List (Nat × StreamOp)) (t : Nat) : List (Nat × StreamOp) :=
  events.filter fun e => e.1 ≤ t

def between (events : List (Nat × StreamOp)) (a b : Nat) : List (Nat × StreamOp) :=
  events.filter fun e => a < e.1 ∧ e.1 ≤ b

/-- The source's table at a position. -/
def stateAt {l : Layout} (S₀ : SourceTable l) (events : List (Nat × StreamOp)) (t : Nat) : Table :=
  match S₀.run? ((upTo events t).map Prod.snd) with
  | some S => S.rows
  | none => fun _ => none

/-- The table's part of the window with these events; none without traffic. -/
def windowOf (l : Layout) (table : String) (events : List (Nat × StreamOp)) :
    Except Error (Option (TableWindow Collapsed)) :=
  if events = [] then .ok none
  else ((Collapser.new l).landAll events).bind fun c => (c.seal table).map some

/-! ## Attempts -/

structure InFlight where
  id : WindowId
  rows : List VerRow
  settled : Bool

/-- One run of the drain against the table. -/
structure Attempt where
  /-- The member's stored watermark when the run began. -/
  floor : Nat
  /-- The end of the last window drained, and of the last one closed. -/
  drained : Nat
  closed : Nat
  /-- The windows in between, in order. -/
  inflight : List InFlight

structure World where
  /-- The table's rows, and every row a window was to write. -/
  table : List VerRow
  sent : List VerRow
  stored : Nat
  attempts : Nat → Option Attempt

def World.setAttempt (w : World) (i : Nat) (a : Attempt) : World :=
  { w with attempts := Function.update w.attempts i (some a) }

/-- The rows a member writes for a window: none when it is already past it. -/
def memberRows (floor : Nat) (w : Option (TableWindow Collapsed)) (id : WindowId) : List VerRow :=
  if id.end ≤ floor then [] else applyUnit w id

inductive Step (l : Layout) (name : String) (events : List (Nat × StreamOp)) : World → World → Prop
  | begins {w : World} {i s : Nat} (new : w.attempts i = none) (start : s ≤ w.stored) :
      Step l name events w (w.setAttempt i ⟨w.stored, s, s, []⟩)
  | drains {w : World} {i b : Nat} {a : Attempt} {x : Option (TableWindow Collapsed)}
      (there : w.attempts i = some a) (later : a.drained ≤ b)
      (window : windowOf l name (between events a.drained b) = .ok x)
      (safe : parallelSafe x.toList = true) :
      Step l name events w
        (World.setAttempt { w with sent := memberRows a.floor x ⟨a.drained, b⟩ ++ w.sent } i
          { a with
            drained := b
            inflight := a.inflight ++
              [⟨⟨a.drained, b⟩, memberRows a.floor x ⟨a.drained, b⟩, false⟩] })
  /-- A row lands: a first time or again, of a run that is alive or dead. -/
  | lands {w : World} {r : VerRow} (sent : r ∈ w.sent) :
      Step l name events w { w with table := r :: w.table }
  | settles {w : World} {i : Nat} {a : Attempt} {before after : List InFlight} {p : InFlight}
      (there : w.attempts i = some a) (split : a.inflight = before ++ p :: after)
      (landed : p.rows ⊆ w.table) :
      Step l name events w
        (w.setAttempt i { a with inflight := before ++ { p with settled := true } :: after })
  /-- The first window in flight has settled: its mark is written, if it has one. -/
  | closes {w : World} {i : Nat} {a : Attempt} {p : InFlight} {rest : List InFlight}
      (there : w.attempts i = some a) (first : a.inflight = p :: rest)
        (settled : p.settled = true) :
      Step l name events w
        (World.setAttempt
          { w with stored := if p.id.end ≤ a.floor then w.stored else p.id.end } i
          { a with closed := p.id.end, inflight := rest })

abbrev Reaches (l : Layout) (name : String) (events : List (Nat × StreamOp)) :
    World → World → Prop :=
  Relation.ReflTransGen (Step l name events)

/-- A bootstrapped table: its rows carry no version yet, and every event is after the
stored watermark. -/
structure World.Start {l : Layout} (w : World) (S₀ : SourceTable l)
    (events : List (Nat × StreamOp)) : Prop where
  rows : ∀ r ∈ w.table, r.ver = 0 ∧ r.value = S₀.rows r.key
  loaded : ∀ k, S₀.rows k ≠ none → ∃ r ∈ w.table, r.key = k
  sent : w.sent = []
  attempts : ∀ i, w.attempts i = none
  later : ∀ e ∈ events, w.stored < e.1

/-! ## One window -/

/-- A window's rows are the source's at its end, one for every key its events were about. -/
theorem applyUnit_spec {l : Layout} {name : String} {events : List (Nat × StreamOp)}
    {S S' : SourceTable l} (legal : S.run? (events.map Prod.snd) = some S')
    {x : Option (TableWindow Collapsed)} (window : windowOf l name events = .ok x)
    (safe : parallelSafe x.toList = true) (id : WindowId) :
    (∀ r ∈ applyUnit x id, r.ver = id.end ∧ r.value = S'.rows r.key) ∧
      ∀ op ∈ events.map Prod.snd, op ≠ .truncate ∧
        ∀ k ∈ op.keys l, ∃ r ∈ applyUnit x id, r.key = k := by
  unfold windowOf at window
  split at window
  · rename_i nothing
    obtain rfl := Except.ok.inj window
    subst nothing
    exact ⟨fun r mem => (by cases mem), fun op mem => (by cases mem)⟩
  · obtain ⟨c, landed, window⟩ := bind_eq_ok.mp window
    obtain ⟨w, closed, rfl⟩ := map_eq_ok.mp window
    obtain ⟨c', landed', tracks⟩ := Collapser.tracks_of_legal legal
    obtain rfl := Except.ok.inj (landed.symm.trans landed')
    obtain rfl := tracks.layout
    obtain rfl := Except.ok.inj ((tracks.sound.seal name).symm.trans closed)
    have flat : c.residue.ops = [] ∧ c.truncated = false := by
      simpa [parallelSafe, Collapser.finish] using safe
    have base := tracks.tail flat.1
    refine ⟨fun r mem => ?_, fun op mem => ?_⟩
    · obtain mem | mem := List.mem_append.mp mem
      · obtain ⟨row, queued, rfl⟩ := List.mem_map.mp mem
        obtain ⟨k, isRow⟩ := tracks.sound.isRow_of_mem_images (List.mem_map_of_mem queued)
        obtain ⟨seq, t, there, same⟩ := Collapser.mem_images.mp (List.mem_map_of_mem queued)
        have pending := tracks.sound.pending_eq_some_iff.mpr ⟨seq, t, there, same, isRow.key⟩
        refine ⟨rfl, ?_⟩
        rw [← base, rowKeyRefs_eq isRow.key]
        exact (Overlay.base_of_pending pending).symm
      · obtain ⟨k, listed, rfl⟩ := List.mem_map.mp mem
        obtain ⟨dropped, dead⟩ := List.mem_filter.mp listed
        refine ⟨rfl, ?_⟩
        rw [← base]
        refine (Overlay.base_of_gone ?_ (.inr (tracks.sound.mem_deletes.mp dropped))).symm
        by_contra pending
        exact of_decide_eq_true dead (tracks.sound.mem_upsertKeys.mpr pending)
    · have uncut : .truncate ∉ events.map Prod.snd := by
        intro mem
        have cut := (Collapser.truncated_landAll landed).mpr (.inr mem)
        rw [flat.2] at cut
        cases cut
      refine ⟨fun same => uncut (same ▸ mem), fun k own => ?_⟩
      have touched := (mem_touchedKeys uncut).mpr ⟨op, mem, own⟩
      rw [← tracks.touched] at touched
      obtain (pending | dropped) | sticky := touched
      · obtain ⟨row, queued, is⟩ := List.mem_map.mp (tracks.sound.mem_upsertKeys.mpr pending)
        exact ⟨_, List.mem_append_left _ (List.mem_map_of_mem queued), is⟩
      · by_cases pending : k ∈ c.finish.upserts.map fun row =>
          rowKeyRefs c.layout.keyIdx row.toCells
        · obtain ⟨row, queued, is⟩ := List.mem_map.mp pending
          exact ⟨_, List.mem_append_left _ (List.mem_map_of_mem queued), is⟩
        · refine ⟨⟨k, id.end, none⟩, List.mem_append_right _ (List.mem_map_of_mem ?_), rfl⟩
          exact List.mem_filter.mpr ⟨tracks.sound.mem_deletes.mpr dropped, decide_eq_true pending⟩
      · obtain ⟨op, deferred, -⟩ := (tracks.named k).mp sticky
        rw [show c.overlay.tail = [] from flat.1] at deferred
        cases deferred

end InsertOnly

end Apitap
