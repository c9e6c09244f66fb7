import Apitap.Foundation.Results
import Mathlib.Algebra.Order.Ring.Nat
import Mathlib.Data.List.Nodup

/-!
# Rows as pgoutput ships them

A tuple is the frame it arrived in plus one range per column; a consumer only
ever looks at it through `view`. The three arms of a cell stay distinct: an
unchanged TOAST cell was not shipped at all, and is neither NULL nor empty text.
`Cellv`, the source's borrowed twin of `Cell`, is the same type here.

Offsets and lengths are natural numbers: a frame is one protocol message, which
is far below the 32-bit range the source stores them in.
-/

namespace Apitap

abbrev Bytes := List UInt8

/-- The crate's error type, with the texts the source gives. -/
inductive Error where
  | transfer (msg : String)
  | invalidInput (msg : String)
  | locked (msg : String)
deriving DecidableEq, Repr

/-- The text an error is shown as. -/
def Error.display : Error → String
  | .locked msg => "locked: " ++ msg
  | .transfer msg => "transfer: " ++ msg
  | .invalidInput msg => "invalid input: " ++ msg

/-- One column of one row, materialized. -/
inductive Cell where
  | null
  | text (bytes : Bytes)
  | unchangedToast
deriving DecidableEq, Repr

instance : LawfulBEq (List Cell) := inferInstance

/-- One cell as a range into its row's frame. -/
inductive CellR where
  | null
  | text (offset len : Nat)
  | unchangedToast
deriving DecidableEq, Repr

/-- The cell a range denotes in a frame. -/
def CellR.view (frame : Bytes) : CellR → Cell
  | .null => .null
  | .text offset len => .text ((frame.drop offset).take len)
  | .unchangedToast => .unchangedToast

structure Tuple where
  frame : Bytes
  cells : List CellR
deriving DecidableEq, Repr

namespace Tuple

def len (t : Tuple) : Nat := t.cells.length

def get (t : Tuple) (i : Nat) : Option Cell := t.cells[i]?.map (CellR.view t.frame)

/-- Owned cells, the format of the residue tail. -/
def toCells (t : Tuple) : List Cell := t.cells.map (CellR.view t.frame)

/-- Two tuples are compared through their views, never through their frames. -/
def views (t : Tuple) : List Cell := t.toCells

def hasToast (t : Tuple) : Bool := t.cells.any (· = .unchangedToast)

/-- The ranges of owned cells laid out one after another from `offset`. -/
def ranges (offset : Nat) : List Cell → List CellR
  | [] => []
  | .null :: cells => .null :: ranges offset cells
  | .text t :: cells => .text offset t.length :: ranges (offset + t.length) cells
  | .unchangedToast :: cells => .unchangedToast :: ranges offset cells

/-- The frame owned cells are concatenated into. -/
def concat : List Cell → Bytes
  | [] => []
  | .text t :: cells => t ++ concat cells
  | _ :: cells => concat cells

def fromCells (cells : List Cell) : Tuple := ⟨concat cells, ranges 0 cells⟩

@[simp] theorem length_toCells (t : Tuple) : t.toCells.length = t.len := by
  simp [toCells, len]

@[simp] theorem get_eq (t : Tuple) (i : Nat) : t.get i = t.toCells[i]? := by
  simp [get, toCells]

@[simp] theorem views_eq (t : Tuple) : t.views = t.toCells := rfl

theorem view_eq_unchangedToast {frame : Bytes} {c : CellR} :
    c.view frame = .unchangedToast ↔ c = .unchangedToast := by
  cases c <;> simp [CellR.view]

theorem hasToast_iff (t : Tuple) : t.hasToast = true ↔ .unchangedToast ∈ t.toCells := by
  simp only [hasToast, toCells, List.any_eq_true, decide_eq_true_eq, List.mem_map,
    view_eq_unchangedToast]

private theorem map_view_ranges (front : Bytes) (cells : List Cell) :
    (ranges front.length cells).map (CellR.view (front ++ concat cells)) = cells := by
  induction cells generalizing front with
  | nil => rfl
  | cons c cells ih =>
      cases c with
      | null => simpa [ranges, concat, CellR.view] using ih front
      | unchangedToast => simpa [ranges, concat, CellR.view] using ih front
      | text t =>
          have rest := ih (front ++ t)
          simp only [List.length_append, List.append_assoc] at rest
          simp [ranges, concat, CellR.view, rest]

/-- Concatenating owned cells into one frame and reading them back through
their ranges gives the same cells. -/
@[simp] theorem toCells_fromCells (cells : List Cell) : (fromCells cells).toCells = cells := by
  simpa [fromCells, toCells] using map_view_ranges [] cells

end Tuple

end Apitap
