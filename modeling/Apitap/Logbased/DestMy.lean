import Apitap.Logbased.DestPg

/-!
# The MySQL destination's apply

A window is a `TRUNCATE TABLE` that commits at once, when the window has one, and then
one transaction: a DELETE joined to a key twin, a bulk INSERT from a row twin, and the
residue tail statement by statement, with a probe after an op that has to find its row.

Keys are compared as the destination's collation compares them: two keys are one when
they have the same weight. The destination table is its rows by the weight of their
primary key; a row keeps the key it was written with. As at the Postgres destination, a
loaded or quoted value is the text that was sent.
-/

namespace Apitap

namespace DestMy

open DestPg

/-- What the server answers, as the source wraps it. -/
def myErr (what e : String) : Error := .transfer s!"log_based: mysql {what}: {e}"

/-- Rows by the weight of their primary key. -/
abbrev MyTable (ω : Type) := ω → Option (List Cell)

variable {ω : Type} [DecidableEq ω] (weight : Key → ω)

/-- One table's statements, as the unit hands them to its connection. -/
inductive Stmt where
  | truncate
  | deleteJoin (keys : List Key)
  | insertRows (rows : List Tuple)
  | residue (op : ResidueOp) (moot : Bool)
deriving DecidableEq

/-- One row of a LOAD DATA LOCAL body. -/
def renderMyRow (row : Tuple) : Except Error (List Cell) :=
  if row.hasToast then
    .error (.transfer "log_based: unchanged-TOAST cell reached the bulk path — collapse bug")
  else .ok row.toCells

def warned (what : String) (n : Nat) (said : String) : Error :=
  .transfer
    (s!"log_based: the {what} raised {n} warning(s), and a warning here means a " ++
      "value was CHANGED to fit — LOAD DATA LOCAL cannot refuse a row, it can " ++
      "only report afterwards. Refusing the window rather than leaving a " ++
      s!"value the source never had. MySQL said: {said}")

/-- `DELETE t FROM t JOIN keys`. -/
def deleteJoin (keys : List Key) (T : MyTable ω) : MyTable ω := fun x =>
  if x ∈ keys.map weight then none else T x

/-- A row into a table with a primary key, with what is said of a key that is missing or
taken. -/
def addRow (l : Layout) (missing taken : Error) (T : MyTable ω) (row : List Cell) :
    Except Error (MyTable ω) :=
  match l.keyTexts row with
  | none => .error missing
  | some k =>
      if T (weight k) = none then .ok (Function.update T (weight k) (some row)) else .error taken

/-- One row of the row twin, whose primary key is the table's: LOAD DATA LOCAL skips a
repeated key with a warning, and no warning is let through. -/
def loadRow (l : Layout) : MyTable ω → List Cell → Except Error (MyTable ω) :=
  addRow weight l (warned "row load" 1 "Warning 1048: Column cannot be null")
    (warned "row load" 1 "Warning 1062: Duplicate entry")

def insertRow (l : Layout) : MyTable ω → List Cell → Except Error (MyTable ω) :=
  addRow weight l (myErr "bulk insert" "Column cannot be null")
    (myErr "bulk insert" "Duplicate entry")

/-- `UPDATE t SET sets WHERE pk = key`. -/
def updateWhere (l : Layout) (key : Key) (sets : List (String × Cell)) (T : MyTable ω) :
    Except Error (MyTable ω) :=
  match T (weight key) with
  | none => .ok T
  | some cur =>
      let row := assign l.cols sets cur
      match l.keyTexts row with
      | none => .error (myErr "residue" "Column cannot be null")
      | some k =>
          if weight k ≠ weight key ∧ T (weight k) ≠ none then .error
            (myErr "residue" "Duplicate entry")
          else .ok (Function.update (Function.update T (weight key) none) (weight k) (some row))

/-- `INSERT .. ON DUPLICATE KEY UPDATE` every column but the key's, or `INSERT IGNORE`
where the key is all there is. -/
def upsertRow (l : Layout) (row : List Cell) (T : MyTable ω) : Except Error (MyTable ω) :=
  let vals := row.map bindOf
  match l.keyTexts vals with
  | none => .error (myErr "residue" "Column cannot be null")
  | some k =>
      match T (weight k) with
      | none => .ok (Function.update T (weight k) (some vals))
      | some cur =>
          let updates := setList (isPk l) l.cols vals
          if updates.isEmpty then .ok T
          else .ok (Function.update T (weight k) (some (assign l.cols updates cur)))

/-- The probe behind an op that has to find its row. -/
def probe (destTable kind : String) (key : Key) (moot : Bool) (T : MyTable ω) :
    Except Error (MyTable ω) :=
  if moot = false ∧ T (weight key) = none then .error (missingRow destTable kind key) else .ok T

def applyOp (l : Layout) (destTable : String) (moot : Bool) : ResidueOp → MyTable ω →
    Except Error (MyTable ω)
  | .maskedUpdate key row, T =>
      let sets := setList (isPk l) l.cols row
      if sets.isEmpty then .ok T
      else (updateWhere weight l key sets T).bind (probe weight destTable "masked" key moot)
  | .upsert row, T => upsertRow weight l row T
  | .delete key, T => .ok (Function.update T (weight key) none)
  | .rekey oldKey newKey row, T =>
      let sets := setList (fun _ => false) l.cols row
      if sets.isEmpty then .ok T
      else (updateWhere weight l oldKey sets T).bind (probe weight destTable "move" newKey moot)

def exec (l : Layout) (destTable : String) : Stmt → MyTable ω → Except Error (MyTable ω)
  | .truncate, _ => .ok fun _ => none
  | .deleteJoin keys, T => .ok (deleteJoin weight keys T)
  | .insertRows rows, T => do
      let rows ← rows.mapM renderMyRow
      let _ ← rows.foldlM (loadRow weight l) fun _ => none
      rows.foldlM (insertRow weight l) T
  | .residue op moot, T => applyOp weight l destTable moot op T

/-- The statements of a window, in order. -/
def statements (w : TableWindow Collapsed) : List Stmt :=
  let c := w.body
  let keys := c.deletes ++ c.upserts.map fun row => rowKeyRefs w.layout.keyIdx row.toCells
  (if c.truncate then [.truncate] else []) ++
    (if c.deletes.isEmpty ∧ c.upserts.isEmpty then [] else [.deleteJoin keys]) ++
    (if c.upserts.isEmpty then [] else [.insertRows c.upserts]) ++
    (c.residue.zip (deletedLater c.residue).1).map fun op => .residue op.1 op.2

/-- One table's part of a window, with the events it reports. -/
def applyUnit (destTable : String) (w : Option (TableWindow Collapsed)) (T : MyTable ω) :
    Except Error (Nat × MyTable ω) :=
  match w with
  | none => .ok (0, T)
  | some w => ((statements w).foldlM (fun T s => exec weight w.layout destTable s T) T).map fun T =>
      (w.body.events, T)

end DestMy

end Apitap
