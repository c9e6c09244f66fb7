import Apitap.Logbased.Collapse
import Mathlib.Data.List.Sort

/-!
# Raw change capture

The append-only lane keeps every operation in WAL order. It is the collapse-free
sibling of `Collapser`: the same input events, no dedup. An update that moves its
row lands twice, as the old identity's `D` and then the new image's `U`, and is
still one source event.
-/

namespace Apitap

/-- What happened to a row, as the destination's `_apitap_op` says it. -/
inductive ChangeOp where
  | insert
  | update
  | delete
  | truncate
deriving DecidableEq, Repr

/-- One captured operation: the new image of an insert or update, the old image
of a delete, no row for a truncate. -/
structure Change where
  op : ChangeOp
  row : Option Tuple
  /-- The key the row lived at before this update moved it. -/
  movedFrom : Option Key
deriving DecidableEq, Repr

/-- Key cells of a row; a missing or non-text cell reads as empty. -/
def keyOf (row : Tuple) (pkIdx : List Nat) : Key :=
  pkIdx.map fun i => match row.get i with
    | some (.text t) => t
    | _ => []

/-- One table's captured window, in WAL order. -/
structure Changes where
  layout : Layout
  events : List Change
  /-- Source events consumed, for reporting. -/
  count : Nat
  /-- Some event carries an unchanged-TOAST cell. -/
  masked : Bool
deriving DecidableEq

namespace Changes

def new (layout : Layout) : Changes := ⟨layout, [], 0, false⟩

def noteMask (c : Changes) (row : Tuple) : Changes :=
  { c with masked := c.masked || row.hasToast }

def push (c : Changes) (change : Change) : Changes :=
  { c with events := c.events ++ [change] }

def insert (c : Changes) (row : Tuple) : Changes :=
  ({ c with count := c.count + 1 }.noteMask row).push ⟨.insert, some row, none⟩

/-- The `D` half of a move and the key it came from, when an update moves its row. -/
def movedOff (c : Changes) (old : Option Tuple) (row : Tuple) : List Change × Option Key :=
  match old with
  | none => ([], none)
  | some old =>
      let «from» := keyOf old c.layout.keyIdx
      if «from» ≠ keyOf row c.layout.keyIdx then ([⟨.delete, some old, none⟩], some «from»)
      else ([], none)

def update (c : Changes) (old : Option Tuple) (row₀ : Tuple) : Changes :=
  let row := match old with
    | some o => keyFromOld c.layout.keyIdx o row₀
    | none => row₀
  let (died, movedFrom) := c.movedOff old row
  let c := { c with count := c.count + 1 }.noteMask row
  { c with events := c.events ++ died ++ [⟨.update, some row, movedFrom⟩] }

def delete (c : Changes) (old : Tuple) : Changes :=
  { c with count := c.count + 1 }.push ⟨.delete, some old, none⟩

/-- A truncate is captured as its own record; the log keeps what came before. -/
def truncate (c : Changes) : Changes :=
  { c with count := c.count + 1 }.push ⟨.truncate, none, none⟩

/-- Land one op; the log needs no commit position. -/
def land (c : Changes) (_pos : Nat) : StreamOp → Changes
  | .insert row => c.insert row
  | .update old row _ => c.update old row
  | .delete old => c.delete old
  | .truncate => c.truncate

/-- Whether a captured record fits `ncols` columns: `I` and `U` records are whole
rows, a `D` record is the old image, which may be the key alone. -/
def fits (ncols : Nat) : Change → Bool
  | ⟨_, none, _⟩ => true
  | ⟨.delete, some row, _⟩ => row.len ≤ ncols
  | ⟨_, some row, _⟩ => row.len = ncols

def rowsFit (c : Changes) (ncols : Nat) : Except Nat Unit :=
  match c.events.find? fun e => !fits ncols e with
  | some e => .error (e.row.elim 0 Tuple.len)
  | none => .ok ()

/-! An UPDATE that leaves a TOASTed column alone omits it from the WAL. Each record
of the log is read on its own, so the value is rebuilt before it is written: from the
last event in this window that carried it, else from what the destination held before
the window. -/

/-- The positions of a row's unchanged-TOAST cells. -/
def maskedAt (row : Tuple) : List Nat :=
  (List.range row.len).filter fun i => row.get i = some .unchangedToast

/-- Where a record's untouched cells still are: the old key of a move. -/
def cellsAt (pkIdx : List Nat) (row : Tuple) (movedFrom : Option Key) : Key :=
  movedFrom.getD (keyOf row pkIdx)

/-- Which keys carry a masked cell, and the union of the columns they are missing, in
column order. A `D` image is never rebuilt, so it asks for nothing. -/
def maskPlan (c : Changes) : List Key × List Nat :=
  let asks := c.events.filterMap fun e =>
    match e.op, e.row with
    | .delete, _ | _, none => none
    | _, some row =>
        if row.hasToast then some (cellsAt c.layout.keyIdx row e.movedFrom, maskedAt row) else none
  ((asks.map Prod.fst).eraseDups, (asks.flatMap Prod.snd).eraseDups.insertionSort (· ≤ ·))

/-- A destination's value of a column: NULL or a text. -/
abbrev Value := Option Bytes

def Value.cell : Value → Cell
  | some t => .text t
  | none => .null

/-- The value a carried cell holds; an unchanged-TOAST cell holds none. -/
def valueOf : Cell → Option Value
  | .text t => some (some t)
  | .null => some none
  | .unchangedToast => none

/-- What each key's row holds after the window's events so far. -/
abbrev Carry := Key → Nat → Option Value

def torn (names : List String) (i : Nat) : Error :=
  let name := names.getD i "?"
  .transfer (s!"log_based changelog: column '{name}' arrived as unchanged-TOAST for a " ++
    "row the destination has never seen — the window is torn. Clear " ++
    "this table's _apitap_state row to re-bootstrap")

/-- What the pre-window destination row at a key holds in a column. -/
def fromDest (cols : List Nat) (base : Key → Option (List Value)) (src : Key) (i : Nat) :
    Option Value :=
  (cols.idxOf? i).bind fun p => (base src).bind (·[p]?)

/-- Replace each unchanged-TOAST cell, from position `i` on. -/
def fillCells (names : List String) (value : Nat → Option Value) (i : Nat) :
    List Cell → Except Error (List Cell)
  | [] => .ok []
  | .unchangedToast :: cells =>
      match value i with
      | none => .error (torn names i)
      | some v => (fillCells names value (i + 1) cells).map (v.cell :: ·)
  | c :: cells => (fillCells names value (i + 1) cells).map (c :: ·)

/-- Every `I` and `U` writes its whole image into the carry. -/
def carryOn (carry : Carry) (key : Key) (cells : List Cell) : Carry :=
  Function.update carry key fun i => (cells[i]?.bind valueOf).or (carry key i)

/-- The rows `resolveMasked` rebuilds, one entry an event: `none` keeps the event's
own row. -/
def resolveFrom (l : Layout) (cols : List Nat) (base : Key → Option (List Value))
    (carry : Carry) (truncated : Bool) : List Change → Except Error (List (Option Tuple))
  | [] => .ok []
  | ⟨.truncate, _, _⟩ :: events =>
      -- the destination's row before the window is no longer the row's past
      (resolveFrom l cols base (fun _ _ => none) true events).map (none :: ·)
  | ⟨.delete, _, _⟩ :: events => (resolveFrom l cols base carry truncated events).map (none :: ·)
  | ⟨_, none, _⟩ :: events => (resolveFrom l cols base carry truncated events).map (none :: ·)
  | ⟨_, some row, movedFrom⟩ :: events =>
      let src := cellsAt l.keyIdx row movedFrom
      let value := fun i => (carry src i).or (if truncated then none else fromDest cols base src i)
      (fillCells l.cols value 0 row.toCells).bind fun cells =>
        let carry := carryOn carry (keyOf row l.keyIdx) cells
        (resolveFrom l cols base carry truncated events).map
          ((if row.hasToast then some (.fromCells cells) else none) :: ·)

def resolveMasked (c : Changes) (cols : List Nat) (base : Key → Option (List Value)) :
    Except Error (List (Option Tuple)) :=
  resolveFrom c.layout cols base (fun _ _ => none) false c.events

end Changes

instance : WindowBody Changes where
  rowsFit := Changes.rowsFit
  eventCount := Changes.count

/-- The window this accumulated, with its layout. -/
def Changes.seal (c : Changes) (table : String) : Except Error (TableWindow Changes) :=
  TableWindow.seal table c.layout c

end Apitap
