import Apitap.Logbased.Window
import Mathlib.Data.List.AList

/-!
# Per-key collapse of one drained window

In go one table's row events in commit order; out come the keys whose
destination rows must go, the final row images, and an ordered residue tail for
the keys that saw an update with a missing TOAST value. A key that went to the
tail stays there: the set phases run first and can no longer order against it.

The source's hash map is an association list with unique keys, its vector of
upserts a list that is written in place by position.
-/

namespace Apitap

/-- A replica-identity key: the key columns' text values in key-column order. -/
abbrev Key := List Bytes

instance : LawfulBEq Key := inferInstance

/-- The map's key: a single-integer identity short-circuits to an integer,
everything else keeps the column texts. -/
inductive K where
  | i64 (value : Int)
  | texts (key : Key)
deriving DecidableEq, Repr

/-- The decimal text of an integer, as the source's formatter prints it. -/
def i64Text (v : Int) : Bytes :=
  let digits := (Nat.toDigits 10 v.natAbs).map (fun c => UInt8.ofNat c.toNat)
  if v < 0 then 45 :: digits else digits

/-- The owned column-texts form that residue ops and delete sets need. -/
def K.materialize : K → Key
  | .i64 v => [i64Text v]
  | .texts key => key

/-- The value of a non-empty run of ASCII digits. -/
def parseDigits (t : Bytes) : Option Nat :=
  if t.isEmpty then none
  else t.foldl (fun acc b => acc.bind fun n =>
    if 48 ≤ b ∧ b ≤ 57 then some (n * 10 + (b.toNat - 48)) else none) (some 0)

/-- An optional sign and digits, within the 64-bit signed range. -/
def parseI64 : Bytes → Option Int
  | 45 :: digits =>
      (parseDigits digits).bind fun n => if n ≤ 2 ^ 63 then some (-(n : Int)) else none
  | 43 :: digits => (parseDigits digits).bind fun n => if n < 2 ^ 63 then some (n : Int) else none
  | digits => (parseDigits digits).bind fun n => if n < 2 ^ 63 then some (n : Int) else none

/-- The single-integer fast path's parser: only sound when printing the integer
gives the source text back, so the round trip is guarded, not assumed. -/
def parseI64Key (t : Bytes) : Option Int :=
  (parseI64 t).bind fun v => if i64Text v = t then some v else none

/-- The key a list of key-column texts is filed under. -/
def K.ofKey : Key → K
  | [t] => match parseI64Key t with
      | some v => .i64 v
      | none => .texts [t]
  | key => .texts key

example : parseI64Key [45, 55] = some (-7) := by decide

example : parseI64Key [48, 48, 55] = none := by decide

inductive ResidueOp where
  /-- Column-masked UPDATE: set only the columns that were shipped. -/
  | maskedUpdate (key : Key) (row : List Cell)
  /-- Full upsert of a row whose key previously went masked. -/
  | upsert (row : List Cell)
  | delete (key : Key)
  /-- A key-changing UPDATE whose new image misses its TOASTed cells: the row is
  moved, so that the untouched value travels with it. -/
  | rekey (oldKey newKey : Key) (row : List Cell)
deriving DecidableEq, Repr

/-- Where a key stands in the window. `del` says the key's pre-window row is
removed in the delete phase. -/
inductive Slot where
  | upsert (seq : Nat) (del : Bool)
  | delete
  | residue (del : Bool)
deriving DecidableEq, Repr

def Slot.del : Slot → Bool
  | .upsert _ del => del
  | .residue del => del
  | .delete => true

/-- The ordered tail and the commit position each op came from. -/
structure Tail where
  ops : List ResidueOp
  at' : List Nat
  /-- The commit position of the transaction being landed. -/
  pos : Nat
deriving DecidableEq, Repr

namespace Tail

def empty : Tail := ⟨[], [], 0⟩

def push (t : Tail) (op : ResidueOp) : Tail :=
  { t with ops := t.ops ++ [op], at' := t.at' ++ [t.pos] }

def clear (t : Tail) : Tail := { t with ops := [], at' := [] }

@[simp] theorem push_ops (t : Tail) (op : ResidueOp) : (t.push op).ops = t.ops ++ [op] := rfl
@[simp] theorem clear_ops (t : Tail) : t.clear.ops = [] := rfl

end Tail

/-- One table's collapsed window. -/
structure Collapsed where
  /-- Keys whose destination rows must go, each once. -/
  deletes : List Key
  /-- Final row images to land, one per surviving key. -/
  upserts : List Tuple
  residue : List ResidueOp
  /-- The source commit position of each residue op's transaction. -/
  residueAt : List Nat
  truncate : Bool
  events : Nat
deriving DecidableEq, Repr

def ResidueOp.row? : ResidueOp → Option (List Cell)
  | .maskedUpdate _ row => some row
  | .upsert row => some row
  | .rekey _ _ row => some row
  | .delete _ => none

/-- Every image the apply writes is a whole row: the upserts, and every residue
op that carries one. -/
def Collapsed.rowsFit (c : Collapsed) (ncols : Nat) : Except Nat Unit :=
  match (c.upserts.map Tuple.len ++ c.residue.filterMap (fun op => op.row?.map List.length)).find?
      (fun n => n ≠ ncols) with
  | some got => .error got
  | none => .ok ()

instance : WindowBody Collapsed where
  rowsFit := Collapsed.rowsFit
  eventCount := Collapsed.events

/-- One key cell that arrived unchanged-TOAST, filled from the old image. -/
def fillKeyCell (old : Tuple) (cells : List Cell) (i : Nat) : List Cell :=
  match cells[i]?, old.get i with
  | some Cell.unchangedToast, some (Cell.text t) => cells.set i (.text t)
  | _, _ => cells

/-- A new image's key cells that arrived unchanged-TOAST, filled from the old
image: an unchanged key is the old key. -/
def keyFromOld (idx : List Nat) (old row : Tuple) : Tuple :=
  if idx.any (fun i => row.get i = some .unchangedToast) then
    Tuple.fromCells (idx.foldl (fillKeyCell old) row.toCells)
  else row

structure Collapser where
  /-- The table's columns; its key positions are what a row is keyed by. -/
  layout : Layout
  map : AList (fun _ : K => Slot)
  /-- Row images by insertion order; a deleted one leaves a hole. -/
  upserts : List (Option Tuple)
  residue : Tail
  truncated : Bool
  events : Nat
deriving DecidableEq

namespace Collapser

def new (layout : Layout) : Collapser := ⟨layout, ∅, [], .empty, false, 0⟩

/-- The commit position of the transaction whose ops come next. -/
def at' (c : Collapser) (pos : Nat) : Collapser :=
  { c with residue := { c.residue with pos := pos } }

def keyCell (row : Tuple) (i : Nat) : Except Error Bytes :=
  match row.get i with
  | some (.text t) => .ok t
  | some .null | none => .error (.transfer
      ("log_based: NULL/missing replica-identity key column in row " ++
        "image — is REPLICA IDENTITY sane on the source table?"))
  | some .unchangedToast => .error (.transfer
      ("log_based: replica-identity key column arrived as " ++
        "unchanged-TOAST — unsupported layout"))

/-- Key of a full row tuple, from the key column indices. -/
def keyOfRow (l : Layout) (row : Tuple) : Except Error K :=
  let owned := (l.keyIdx.mapM (keyCell row)).map K.texts
  match l.keyIdx with
  | [i] => match row.get i with
      | some (.text t) => match parseI64Key t with
          | some v => .ok (.i64 v)
          | none => owned
      | _ => owned
  | _ => owned

/-- Key of an old image: the key columns are at the same indices. -/
def keyOfOld (l : Layout) (old : Tuple) : Except Error K := keyOfRow l old

def pushUpsert (c : Collapser) (key : K) (row : Tuple) (del : Bool) : Collapser :=
  { c with
    upserts := c.upserts ++ [some row]
    map := c.map.insert key (.upsert c.upserts.length del) }

def pushResidue (c : Collapser) (op : ResidueOp) : Collapser :=
  { c with residue := c.residue.push op }

def insert (c₀ : Collapser) (row : Tuple) : Except Error Collapser :=
  let c := { c₀ with events := c₀.events + 1 }
  (keyOfRow c.layout row).map fun key =>
    match c.map.lookup key with
    | some (.residue _) => c.pushResidue (.upsert row.toCells)
    -- Last write wins in place.
    | some (.upsert seq _) => { c with upserts := c.upserts.set seq (some row) }
    -- Delete then re-insert keeps both: the delete phase runs first.
    | some .delete => c.pushUpsert key row true
    | none => c.pushUpsert key row false

/-- A delete, and the old-identity kill on a key-changing update. -/
def putDelete (c : Collapser) (key : K) : Collapser :=
  match c.map.lookup key with
  | some (.residue _) => c.pushResidue (.delete key.materialize)
  -- Insert-then-delete nets to delete-only.
  | some (.upsert seq _) =>
      { c with upserts := c.upserts.set seq none, map := c.map.insert key .delete }
  | some .delete => c
  | none => { c with map := c.map.insert key .delete }

/-- Whether the row leaving `oldKey` is another row than the one this window
last wrote there: only a full old image can tell. -/
def otherRow (c : Collapser) (oldFull : Bool) (old : Tuple) (oldKey : K) : Bool :=
  oldFull && match c.map.lookup oldKey with
    | some (.upsert seq _) => match c.upserts[seq]? with
        | some (some up) => decide (up.views ≠ old.views)
        | _ => false
    | _ => false

/-- The old identity of a key-changing update with a whole new image. -/
def killOld (c : Collapser) (oldFull : Bool) (old : Tuple) (oldKey : K) : Collapser :=
  if c.otherRow oldFull old oldKey then
    match c.map.lookup oldKey with
    | some (.upsert seq _) => { c with map := c.map.insert oldKey (.upsert seq true) }
    | _ => c
  else c.putDelete oldKey

/-- A key-changing update with a masked new image moves the row in the tail.
Both keys go sticky, and each keeps its pending delete. -/
def moveMasked (c : Collapser) (oldKey newKey : K) (row : Tuple) : Collapser :=
  let c := c.pushResidue (.rekey oldKey.materialize newKey.materialize row.toCells)
  let dOld := (c.map.lookup oldKey).any Slot.del
  let dNew := (c.map.lookup newKey).any Slot.del
  { c with map := (c.map.insert oldKey (.residue dOld)).insert newKey (.residue dNew) }

/-- The new image of an update, filed under its key. -/
def putImage (c : Collapser) (newKey : K) (row : Tuple) : Collapser :=
  let toast := row.hasToast
  match c.map.lookup newKey with
  | some (.residue _) =>
      if toast then c.pushResidue (.maskedUpdate newKey.materialize row.toCells)
      else c.pushResidue (.upsert row.toCells)
  | some slot =>
      if toast then
        let c := c.pushResidue (.maskedUpdate newKey.materialize row.toCells)
        { c with map := c.map.insert newKey (.residue slot.del) }
      else match slot with
        | .upsert seq _ => { c with upserts := c.upserts.set seq (some row) }
        | _ => c.pushUpsert newKey row true
  | none =>
      if toast then
        let c := c.pushResidue (.maskedUpdate newKey.materialize row.toCells)
        { c with map := c.map.insert newKey (.residue false) }
      else c.pushUpsert newKey row false

/-- `oldFull`: the old image is the whole row (REPLICA IDENTITY FULL), not the
key alone. -/
def updateImage (c₀ : Collapser) (old : Option Tuple) (oldFull : Bool) (row₀ : Tuple) :
    Except Error Collapser := do
  let c := { c₀ with events := c₀.events + 1 }
  let row := match old with
    | some o => keyFromOld c.layout.keyIdx o row₀
    | none => row₀
  let newKey ← keyOfRow c.layout row
  match old with
  | none => .ok (c.putImage newKey row)
  | some old =>
      let oldKey ← keyOfOld c.layout old
      if oldKey = newKey then .ok (c.putImage newKey row)
      else if row.hasToast then .ok (c.moveMasked oldKey newKey row)
      else .ok ((c.killOld oldFull old oldKey).putImage newKey row)

def delete (c₀ : Collapser) (old : Tuple) : Except Error Collapser :=
  let c := { c₀ with events := c₀.events + 1 }
  (keyOfOld c.layout old).map c.putDelete

/-- Everything staged so far is moot: the destination restarts empty here. -/
def truncate (c : Collapser) : Collapser :=
  { c with
    events := c.events + 1
    map := ∅
    upserts := []
    residue := c.residue.clear
    truncated := true }

/-- One pass over the key map at the window's end. -/
def finish (c : Collapser) : Collapsed where
  deletes := c.map.entries.filterMap fun e => if e.2.del then some e.1.materialize else none
  upserts := c.upserts.reduceOption
  residue := c.residue.ops
  residueAt := c.residue.at'
  truncate := c.truncated
  events := c.events

end Collapser

/-- The window this collapser accumulated, with the layout it was keyed by. -/
def Collapser.seal (c : Collapser) (table : String) : Except Error (TableWindow Collapsed) :=
  TableWindow.seal table c.layout c.finish

/-- Buffered op of a transaction, as the drain hands it to a table's body. -/
inductive StreamOp where
  | insert (row : Tuple)
  /-- Old image (if any), new image, and whether the old image is full. -/
  | update (old : Option Tuple) (row : Tuple) (full : Bool)
  | delete (old : Tuple)
  | truncate
deriving DecidableEq, Repr

/-- Land one op at its transaction's commit position. -/
def Collapser.land (c : Collapser) (pos : Nat) : StreamOp → Except Error Collapser
  | .insert row => (c.at' pos).insert row
  | .update old row full => (c.at' pos).updateImage old full row
  | .delete old => (c.at' pos).delete old
  | .truncate => .ok (c.at' pos).truncate

def Collapser.landAll (c : Collapser) : List (Nat × StreamOp) → Except Error Collapser
  | [] => .ok c
  | (pos, op) :: ops => (c.land pos op).bind (·.landAll ops)

/-- For each residue op, whether a later op in the same window takes the row
away from the key it has to find: deletes it, or moves it on. The scan runs
backwards, so `gone` holds the keys later ops take rows from. -/
def deletedLater : List ResidueOp → List Bool × List Key
  | [] => ([], [])
  | op :: ops =>
      let (out, gone) := deletedLater ops
      match op with
      | .maskedUpdate key _ => (gone.contains key :: out, gone)
      | .rekey oldKey newKey _ => (gone.contains newKey :: out, oldKey :: gone)
      | .delete key => (false :: out, key :: gone)
      | .upsert _ => (false :: out, gone)

end Apitap
