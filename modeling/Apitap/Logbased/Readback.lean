import Apitap.Logbased.CurrentView

/-!
# The masked readback

Before a window with masked cells is appended, the destination is asked once for what
those cells held before it. The keys go out in statements of a bounded size, and every
answer row names the key it matched by a slot: BigQuery's slots run over the whole key
list, ClickHouse's over its own statement. Each statement reads the rows that were in
the log before the window, under the view's three rules.
-/

namespace Apitap

open Changes (Value)

/-- What the answers are gathered in: each asked key's columns. -/
abbrev Base := Key → Option (List Value)

/-- A row of an answer: the slot of the key it matched, and the columns asked for. -/
structure SlotRow where
  slot : Option Nat
  cells : List Value

def cellsOf (cols : List Nat) (r : LogRow Entry) : List Value :=
  cols.map fun i => ((r.row.bind (·.get i)).bind Changes.valueOf).getD none

/-! ## BigQuery -/

namespace Bq

/-- Bytes of one statement. -/
def chunkBytes : Nat := 256 * 1024

/-- The key rows of each statement: a new one starts where the next row would take a
statement that has rows past `chunkBytes`. `len` is a key row's text, `head` what every
statement starts with, 11 the `UNION ALL` between rows. -/
def cut (head : Nat) (len : Nat × Key → Nat) (rows : List (Nat × Key)) (size : Nat) :
    List (Nat × Key) → List (List (Nat × Key))
  | [] => [rows]
  | r :: rs =>
      if rows ≠ [] ∧ chunkBytes < size + len r then
        rows :: cut head len [r] (head + len r + 11) rs
      else cut head len (rows ++ [r]) (size + len r + 11) rs

def keyParts (key pk : Nat) : String :=
  s!"log_based changelog: readback key has {key} part(s), the key has {pk}"

/-- The statements of a readback, each as its keys with their slots in the whole list. -/
def readBaseSqls (pkLen head : Nat) (len : Nat × Key → Nat) (keys : List Key) (cols : List Nat) :
    Except Error (List (List (Nat × Key))) :=
  match keys.find? fun k => k.length ≠ pkLen with
  | some k => .error (.transfer (keyParts k.length pkLen))
  | none =>
      if keys = [] ∨ cols = [] then .ok []
      else .ok (cut head len [] head (keys.zipIdx.map fun (k, slot) => (slot, k)))

/-- `MAX` of the `T` rows' lsns, NULL over none. -/
def newestT (pre : List (LogRow Entry)) : Option Nat :=
  ((pre.filter (LogRow.isOp .truncate)).map LogRow.lsn).max?

/-- `MAX` of the seqs of the `T` rows at that lsn. -/
def newestTSeq (pre : List (LogRow Entry)) : Option Nat :=
  ((pre.filter fun r => r.isOp .truncate ∧ some r.lsn = newestT pre).map LogRow.seq).max?

/-- The row stands past the newest `T`. A comparison with NULL does not hold. -/
def pastT (pre : List (LogRow Entry)) (r : LogRow Entry) : Bool :=
  match newestT pre, newestTSeq pre with
  | none, _ => true
  | some l, s => l < r.lsn ∨ r.lsn = l ∧ s.any (· < r.seq)

/-- What one statement selects: its keys joined with the log before the window, each
slot's newest row past the newest `T`, unless it is a `D`. -/
def readBaseSql (pkIdx cols : List Nat) (plan : ReplayPlan) (table : List (LogRow Entry))
    (keys : List (Nat × Key)) : List SlotRow :=
  let pre := table.filter (beforeWindow plan)
  let joined := pre.flatMap fun p =>
    (keys.filter fun k => p.key pkIdx = keyCells k.2).map fun k => (k.1, p)
  let newest := topPerKey Prod.fst (fun a b => LogRow.before a.2 b.2)
    (joined.filter fun x => pastT pre x.2)
  (newest.filter fun x => !x.2.isOp .delete).map fun x => ⟨some x.1, cellsOf cols x.2⟩

/-- The rows a query returns, of the pages the server cuts its result into: those of the
first page. -/
def query (pages : List (List SlotRow)) : List SlotRow := pages.headD []

def noSlot : Error := .transfer "log_based changelog: masked readback without its key slot"

def columnCount : Error := .transfer "log_based changelog: masked readback column count mismatch"

def outOfRange (slot : Nat) : Error :=
  .transfer s!"log_based changelog: masked readback slot {slot} is out of range"

/-- One answer row. -/
def takeRow (keys : List Key) (cols : List Nat) (out : Base) (row : SlotRow) : Except Error Base :=
  match row.slot with
  | none => .error noSlot
  | some slot =>
      if row.cells.length ≠ cols.length then .error columnCount
      else
        match keys[slot]? with
        | none => .error (outOfRange slot)
        | some key => .ok (Function.update out key (some row.cells))

/-- The readback: every statement, each answered in pages. -/
def readBase (pkLen head : Nat) (len : Nat × Key → Nat) (keys : List Key) (cols : List Nat)
    (answer : List (Nat × Key) → List (List SlotRow)) : Except Error Base :=
  (readBaseSqls pkLen head len keys cols).bind fun sqls =>
    sqls.foldlM (fun out sql => (query (answer sql)).foldlM (takeRow keys cols) out) fun _ => none

end Bq

/-! ## ClickHouse -/

namespace Ch

def readbackKeys : Nat := 1000

def readbackPredBytes : Nat := 160 * 1024

/-- Consecutive index ranges whose summed lengths stay within `cap` and that hold at most
`maxItems`, from item `i` of a range opened at `start` on. -/
def chunkFrom (cap maxItems start i sum : Nat) : List Nat → List (Nat × Nat)
  | [] => if start < i then [(start, i)] else []
  | n :: lens =>
      if start < i ∧ (cap < sum + n ∨ maxItems ≤ i - start) then
        (start, i) :: chunkFrom cap maxItems i (i + 1) n lens
      else chunkFrom cap maxItems start (i + 1) (sum + n) lens

def chunkByBytes (lens : List Nat) (cap maxItems : Nat) : List (Nat × Nat) :=
  chunkFrom cap maxItems 0 0 0 lens

def slice (keys : List Key) (range : Nat × Nat) : List Key := (keys.take range.2).drop range.1

/-- The `multiIf` over the keys: the first one that matches, or `-1`. -/
def slotOf (pkIdx : List Nat) (keys : List Key) (r : LogRow Entry) : Option Nat :=
  keys.findIdx? fun k => r.key pkIdx = keyCells k

/-- What one statement selects. -/
def readBaseChunkSql (pkIdx cols : List Nat) (plan : ReplayPlan) (table : List (LogRow Entry))
    (keys : List Key) : List SlotRow :=
  (newestRows pkIdx (fun cells => cells ∈ keys.map keyCells)
    (table.filter (beforeWindow plan))).map fun r => ⟨slotOf pkIdx keys r, cellsOf cols r⟩

def noKey (slot : Option Nat) : Error :=
  let text := slot.elim "-1" toString
  .transfer s!"log_based changelog: masked readback slot '{text}' matches no requested key"

/-- One line of an answer. -/
def takeLine (keys : List Key) (cols : List Nat) (out : Base) (row : SlotRow) :
    Except Error Base :=
  if row.cells.length ≠ cols.length then .error Bq.columnCount
  else
    match row.slot.bind (keys[·]?) with
    | none => .error (noKey row.slot)
    | some key => .ok (Function.update out key (some row.cells))

/-- The readback: every chunk of the keys under its own slots. `len` is what a key costs
in a statement. -/
def readBase (len : Nat × Key → Nat) (keys : List Key) (cols : List Nat)
    (answer : List Key → List SlotRow) : Except Error Base :=
  let lens := keys.zipIdx.map fun (k, i) => len (i, k)
  (chunkByBytes lens readbackPredBytes readbackKeys).foldlM (fun out range =>
    (answer (slice keys range)).foldlM (takeLine (slice keys range) cols) out) fun _ => none

end Ch

end Apitap
