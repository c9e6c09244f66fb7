import Apitap.Wire.ArrowCells

/-!
# Sealed Arrow batches

Rows come into the builder by both ways, and every column holds just their cells. A batch leaves
with its bitmaps, values and offsets in step. A text column is checked as a whole, so that each
of its values is well formed exactly if none starts in the middle of a character.
-/

namespace Apitap.Arrow

open Foundation

variable {kinds : List ArrowKind} {kind : ArrowKind} {cells : List CellVal} {cell : CellVal}
  {rows : List (List CellVal)} {b b' : BatchBuilder} {batch : ArrowBatch}

/-! ## What a column must be -/

/-- A bitmap has a bit for every row, on where the cell is not NULL; without one, all are. -/
def ValidityOk (cells : List CellVal) : Option Bytes → Prop
  | none => ∀ cell ∈ cells, cell ≠ .null
  | some bm => bm.length = (cells.length + 7) / 8 ∧
      ∀ i cell, cells[i]? = some cell → Bitmap.bit bm i = decide (cell ≠ .null)

/-- The bytes of row `i`. -/
def sliceAt (off : List Int) (d : Bytes) (i : Nat) : Bytes :=
  (d.drop (off.getD i 0).toNat).take (off.getD (i + 1) 0 - off.getD i 0).toNat

structure VarlenOk (cells : List CellVal) (off : List Int) (d : Bytes) : Prop where
  entries : off.length = cells.length + 1
  start : off.head? = some 0
  ordered : off.Pairwise (· ≤ ·)
  last : off.getLast? = some (d.length : Int)
  within : ∀ o ∈ off, 0 ≤ o ∧ o ≤ 2 ^ 31 - 1
  slice : ∀ i cell, cells[i]? = some cell → sliceAt off d i = cell.bytes

/-- A sealed column of some cells. -/
def ColumnOk (cells : List CellVal) : ArrowKind → FinishedCol → Prop
  | .int16, .i16 v d => ValidityOk cells v ∧ d = cells.map CellVal.int
  | .int32, .i32 v d => ValidityOk cells v ∧ d = cells.map CellVal.int
  | .int64, .i64 v d => ValidityOk cells v ∧ d = cells.map CellVal.int
  | .float32, .f32 v d => ValidityOk cells v ∧ d = cells.map CellVal.float
  | .float64, .f64 v d => ValidityOk cells v ∧ d = cells.map CellVal.float
  | .bool, .bool v d => ValidityOk cells v ∧ d.length = (cells.length + 7) / 8 ∧
      ∀ i cell, cells[i]? = some cell → Bitmap.bit d i = cell.flag
  | .decimal _ _, .dec128 v d => ValidityOk cells v ∧ d = cells.map CellVal.int
  | .date32, .i32 v d => ValidityOk cells v ∧ d = cells.map CellVal.int
  | .timestampUtc, .i64 v d => ValidityOk cells v ∧ d = cells.map CellVal.int
  | .timestampNaive, .i64 v d => ValidityOk cells v ∧ d = cells.map CellVal.int
  | .utf8, .utf8 v off d => ValidityOk cells v ∧ VarlenOk cells off d ∧
      ∀ i < cells.length, Utf8.valid (sliceAt off d i) = true
  | .binary, .bin v off d => ValidityOk cells v ∧ VarlenOk cells off d
  | _, _ => False

/-- The cells of column `c`. -/
def column (rows : List (List CellVal)) (c : Nat) : List CellVal :=
  rows.map fun row => row.getD c .null

structure WellFormed (kinds : List ArrowKind) (rows : List (List CellVal))
    (batch : ArrowBatch) : Prop where
  count : batch.rows = rows.length
  cols : batch.cols.length = kinds.length
  col : ∀ c kind col, kinds[c]? = some kind → batch.cols[c]? = some col →
    ColumnOk (column rows c) kind col

/-! ## What a column's buffers are -/

theorem validityOk : ValidityOk cells (bitmap (present cells)) := by
  rw [bitmap]
  split
  · rename_i all
    intro cell mem
    exact of_decide_eq_true (List.all_eq_true.mp all _ (List.mem_map_of_mem mem))
  · refine ⟨?_, ?_⟩
    · rw [Bitmap.length_pack, present, List.length_map]
    · intro i cell is
      rw [Bitmap.bit_pack, present, List.getD_eq_getElem?_getD, List.getElem?_map, is]
      rfl

theorem flagsOk : (Bitmap.pack (cells.map CellVal.flag)).length = (cells.length + 7) / 8 ∧
    ∀ i cell, cells[i]? = some cell →
      Bitmap.bit (Bitmap.pack (cells.map CellVal.flag)) i = cell.flag := by
  refine ⟨?_, ?_⟩
  · rw [Bitmap.length_pack, List.length_map]
  · intro i cell is
    rw [Bitmap.bit_pack, List.getD_eq_getElem?_getD, List.getElem?_map, is]
    rfl

/-- Where the bytes of cell `i` begin. -/
def offset (cells : List CellVal) (i : Nat) : Nat :=
  ((cells.take i).flatMap CellVal.bytes).length

theorem ends_eq : ends cells = (List.range (cells.length + 1)).map (offset cells) := rfl

theorem offset_mono {i j : Nat} (le : i ≤ j) : offset cells i ≤ offset cells j := by
  have split : cells.take j = cells.take i ++ (cells.take j).drop i := by
    have parts := (List.take_append_drop i (cells.take j)).symm
    rwa [List.take_take, Nat.min_eq_left le] at parts
  rw [offset, offset, split, List.flatMap_append, List.length_append]
  exact Nat.le_add_right _ _

theorem offset_le {i : Nat} : offset cells i ≤ (cells.flatMap CellVal.bytes).length := by
  have parts := congrArg (List.flatMap CellVal.bytes) (List.take_append_drop i cells)
  rw [List.flatMap_append] at parts
  rw [← parts, List.length_append]
  exact Nat.le_add_right _ _

theorem offset_succ {i : Nat} (is : cells[i]? = some cell) :
    offset cells (i + 1) = offset cells i + cell.bytes.length := by
  rw [offset, List.take_add_one, is, List.flatMap_append, List.length_append, offset]
  congr 1
  rw [Option.toList_some, List.flatMap_singleton]

/-- Seeking to a cell's offset puts the reader at its first byte. -/
theorem drop_offset {i : Nat} (is : cells[i]? = some cell) :
    (cells.flatMap CellVal.bytes).drop (offset cells i) =
      cell.bytes ++ (cells.drop (i + 1)).flatMap CellVal.bytes := by
  obtain ⟨within, here⟩ := List.getElem?_eq_some_iff.mp is
  have parts := congrArg (List.flatMap CellVal.bytes) (List.take_append_drop i cells)
  rw [List.flatMap_append, List.drop_eq_getElem_cons within, here, List.flatMap_cons] at parts
  rw [← parts, offset, List.drop_left]

theorem getD_offsets {i : Nat} (small : (cells.flatMap CellVal.bytes).length ≤ 2 ^ 31 - 1)
    (within : i ≤ cells.length) :
    ((ends cells).map asI32).getD i 0 = (offset cells i : Int) := by
  rw [ends_eq, List.getD_eq_getElem?_getD, List.getElem?_map, List.getElem?_map,
    List.getElem?_range (Nat.lt_succ_of_le within), Option.map_some, Option.map_some,
    Option.getD_some, asI32_small (Nat.le_trans offset_le small)]

theorem varlenOk (small : (cells.flatMap CellVal.bytes).length ≤ 2 ^ 31 - 1) :
    VarlenOk cells ((ends cells).map asI32) (cells.flatMap CellVal.bytes) := by
  have exact_ends : (ends cells).map asI32 =
      (List.range (cells.length + 1)).map fun i => (offset cells i : Int) := by
    rw [ends_eq, List.map_map]
    apply List.map_congr_left
    intro i _
    rw [Function.comp_apply, asI32_small (Nat.le_trans offset_le small)]
  refine ⟨?_, ?_, ?_, ?_, ?_, ?_⟩
  · rw [List.length_map, length_ends]
  · rw [exact_ends, List.head?_map, List.head?_range, if_neg (Nat.succ_ne_zero _)]
    rfl
  · rw [exact_ends, List.pairwise_map]
    apply List.pairwise_lt_range.imp
    intro i j lt
    exact Int.ofNat_le.mpr (offset_mono (Nat.le_of_lt lt))
  · rw [exact_ends, List.range_succ, List.map_append, List.map_singleton, List.getLast?_concat,
      offset, List.take_length]
  · intro o mem
    rw [exact_ends] at mem
    obtain ⟨i, -, is⟩ := List.mem_map.mp mem
    have le : offset cells i ≤ 2 ^ 31 - 1 := Nat.le_trans offset_le small
    omega
  · intro i cell is
    have within : i < cells.length := (List.getElem?_eq_some_iff.mp is).1
    rw [sliceAt, getD_offsets small (Nat.le_of_lt within), getD_offsets small within,
      offset_succ is, Int.toNat_natCast, drop_offset is]
    have len : ((offset cells i + cell.bytes.length : Nat) - (offset cells i : Int)).toNat =
        cell.bytes.length := by omega
    rw [len, List.take_left]

/-! ## What a builder holds -/

/-- Every column holds the cells of the rows since the last seal. -/
structure Holds (kinds : List ArrowKind) (b : BatchBuilder) (rows : List (List CellVal)) :
    Prop where
  count : b.rows = rows.length
  cols : b.cols.length = kinds.length
  col : ∀ c kind, kinds[c]? = some kind → b.cols[c]? = some (colOf (column rows c) kind)

theorem length_column {c : Nat} : (column rows c).length = rows.length := List.length_map _

theorem column_append {c : Nat} {more : List (List CellVal)} :
    column (rows ++ more) c = column rows c ++ column more c := List.map_append

theorem holds_new {batchBytes : Nat} : Holds kinds (.new kinds batchBytes) [] := by
  refine ⟨rfl, List.length_map _, ?_⟩
  intro c kind is
  rw [BatchBuilder.new, List.getElem?_map, is, Option.map_some, ← colOf_nil]
  rfl

/-- What reading and framing leave in the builder concerns no column. -/
theorem Holds.framed (holds : Holds kinds b rows) (buf : Bytes) (inSpan : Bool) (frLeft : Nat) :
    Holds kinds { b with buf := buf, inSpan := inSpan, frLeft := frLeft } rows :=
  ⟨holds.count, holds.cols, holds.col⟩

/-- The cells of a staged tuple. -/
def rowOf (kinds : List ArrowKind) (fields : List (Option Bytes)) : List CellVal :=
  kinds.zipIdx.map fun p => value p.1 fields[p.2]?.join

theorem column_rowOf {c : Nat} {staged : List (List (Option Bytes))}
    (is : kinds[c]? = some kind) :
    column (staged.map (rowOf kinds)) c =
      (staged.map fun fields => fields[c]?.join).map (value kind) := by
  rw [column, List.map_map, List.map_map]
  apply List.map_congr_left
  intro fields _
  rw [Function.comp_apply, Function.comp_apply, rowOf, List.getD_eq_getElem?_getD,
    List.getElem?_map, List.getElem?_zipIdx, is, Nat.zero_add]
  rfl

/-- Staged tuples go behind the rows there are. -/
theorem Holds.staged {staged : List (List (Option Bytes))} (holds : Holds kinds b rows)
    (is : b.decodeStaged staged = .ok b') :
    Holds kinds b' (rows ++ staged.map (rowOf kinds)) := by
  obtain ⟨cols, decoded, same⟩ := map_eq_ok.mp is
  subst same
  obtain ⟨len, each⟩ := mapM_ok decoded
  refine ⟨?_, ?_, ?_⟩
  · rw [List.length_append, List.length_map, ← holds.count]
  · rw [len, List.length_zipIdx, holds.cols]
  · intro c kind here
    have from_ : b.cols.zipIdx[c]? = some (colOf (column rows c) kind, c) := by
      rw [List.getElem?_zipIdx, holds.col c kind here, Nat.zero_add]
      rfl
    obtain ⟨col, at_, fields⟩ := each c _ from_
    dsimp only at fields
    have len : (column rows c).length = rows.length := length_column
    rw [holds.count, ← len] at fields
    rw [at_, decodeFields_colOf fields, column_append, column_rowOf here]

/-- A row whose first cells are in. -/
structure Partly (kinds : List ArrowKind) (b : BatchBuilder) (rows : List (List CellVal))
    (row : List CellVal) (n : Nat) : Prop where
  count : b.rows = rows.length
  cols : b.cols.length = kinds.length
  col : ∀ c kind, kinds[c]? = some kind → b.cols[c]? =
    some (colOf (column rows c ++ if c < n then [row.getD c .null] else []) kind)

theorem Partly.one {row : List CellVal} {n : Nat} (partly : Partly kinds b rows row n)
    (is : row[n]? = some cell) (added : b.appendCell n cell = some b') :
    Partly kinds b' rows row (n + 1) := by
  obtain ⟨old, here, mapped⟩ := Option.bind_eq_some_iff.mp added
  obtain ⟨col, goes, same⟩ := Option.map_eq_some_iff.mp mapped
  subst same
  have within : n < kinds.length := partly.cols ▸ (List.getElem?_eq_some_iff.mp here).1
  have before := partly.col n _ (List.getElem?_eq_getElem within)
  rw [if_neg (Nat.lt_irrefl n), List.append_nil] at before
  rw [before] at here
  cases here
  have fits := fits_of_appendCell goes
  have len : (column rows n).length = rows.length := length_column
  rw [partly.count, ← len, appendCell_colOf fits] at goes
  refine ⟨partly.count, by rw [List.length_set, partly.cols], ?_⟩
  intro c kind at_
  by_cases same : c = n
  · subst same
    have kind_is := Option.some.inj ((List.getElem?_eq_getElem within).symm.trans at_)
    rw [List.getElem?_set_self (partly.cols ▸ within), if_pos (Nat.lt_succ_self c),
      List.getD_eq_getElem?_getD, is, ← Option.some.inj goes, kind_is]
    rfl
  · have before : (c < n + 1) = (c < n) := by
      apply propext
      omega
    rw [List.getElem?_set_ne (Ne.symm same), partly.col c kind at_]
    simp only [before]

theorem Partly.all {row xs : List CellVal} {n : Nat} (partly : Partly kinds b rows row n)
    (is : row.drop n = xs) (added : b.appendCells n xs = some b') :
    Partly kinds b' rows row (n + xs.length) := by
  induction xs generalizing b n with
  | nil =>
      cases added
      exact partly
  | cons x xs ih =>
      obtain ⟨b₁, one, rest⟩ := Option.bind_eq_some_iff.mp added
      have here : row[n]? = some x := by
        rw [← List.head?_drop, is]
        rfl
      have later : row.drop (n + 1) = xs := by
        rw [← List.tail_drop, is]
        rfl
      have done := ih (partly.one here one) later rest
      rwa [Nat.add_assoc, Nat.add_comm 1] at done

/-- A row of cells goes behind the rows there are. -/
theorem Holds.row {row : List CellVal} (holds : Holds kinds b rows)
    (full : row.length = kinds.length) (added : b.appendCells 0 row = some b') :
    Holds kinds b'.rowDone (rows ++ [row]) := by
  have start : Partly kinds b rows row 0 := by
    refine ⟨holds.count, holds.cols, ?_⟩
    intro c kind at_
    rw [if_neg (Nat.not_lt_zero c), List.append_nil]
    exact holds.col c kind at_
  have done := start.all List.drop_zero added
  rw [Nat.zero_add, full] at done
  refine ⟨?_, done.cols, ?_⟩
  · rw [List.length_append, ← done.count]
    rfl
  · intro c kind at_
    have within : c < kinds.length := (List.getElem?_eq_some_iff.mp at_).1
    have is := done.col c kind at_
    rw [if_pos within] at is
    rw [column_append]
    exact is

/-! ## Sealing -/

theorem sealCol_fresh : (colOf cells kind).sealCol.2 = colOf [] kind := by
  cases kind <;> rfl

/-- A batch is the columns of a builder whose checks pass, and leaves it empty. -/
theorem sealBatch_ok (is : b.sealBatch = .ok (batch, b')) :
    b.checkOffsets = .ok () ∧ b.checkUtf8 = .ok () ∧
      batch = ⟨b.rows, b.cols.map fun col => col.sealCol.1⟩ ∧ b'.rows = 0 ∧
      b'.cols = b.cols.map fun col => col.sealCol.2 := by
  obtain ⟨⟨⟩, offsets, is⟩ := bind_eq_ok.mp is
  obtain ⟨⟨⟩, texts, is⟩ := map_eq_ok.mp is
  cases is
  exact ⟨offsets, texts, rfl, rfl, rfl⟩

theorem Holds.sealed (holds : Holds kinds b rows) (is : b.sealBatch = .ok (batch, b')) :
    Holds kinds b' [] := by
  obtain ⟨-, -, -, none, cols⟩ := sealBatch_ok is
  refine ⟨none, by rw [cols, List.length_map, holds.cols], ?_⟩
  intro c kind here
  rw [cols, List.getElem?_map, holds.col c kind here, Option.map_some, sealCol_fresh]
  rfl

theorem small_of_checkOffsets {col : ColB} {d : Bytes} (ok : b.checkOffsets = .ok ())
    (mem : col ∈ b.cols) (is : col.varlen? = some d) : d.length ≤ 2 ^ 31 - 1 := by
  rw [BatchBuilder.checkOffsets] at ok
  split at ok
  · cases ok
  · rename_i none
    by_contra long
    apply none
    apply List.any_eq_true.mpr
    refine ⟨col, mem, ?_⟩
    rw [is, Option.any_some]
    exact decide_eq_true (Nat.lt_of_not_le long)

theorem valid_of_checkUtf8 {col : ColB} {d : Bytes} (ok : b.checkUtf8 = .ok ())
    (mem : col ∈ b.cols) (is : col.text? = some d) : Utf8.valid d = true := by
  rw [BatchBuilder.checkUtf8] at ok
  split at ok
  · cases ok
  · rename_i none
    obtain ⟨c, here⟩ := List.mem_iff_getElem?.mp mem
    have at_ : (col, c) ∈ b.cols.zipIdx := List.mk_mem_zipIdx_iff_getElem?.mpr here
    have passes := List.find?_eq_none.mp none _ at_
    dsimp only at passes
    rw [is, Option.any_some] at passes
    simpa using passes

/-- The texts of a column that is well formed as a whole. -/
theorem slices_valid_iff {off : List Int}
    (slices : VarlenOk cells off (cells.flatMap CellVal.bytes))
    (ok : Utf8.valid (cells.flatMap CellVal.bytes) = true) :
    (∀ i < cells.length, Utf8.valid (sliceAt off (cells.flatMap CellVal.bytes) i) = true) ↔
      ∀ cell ∈ cells, ∀ byte ∈ cell.bytes.head?, ¬ Utf8.Tail byte := by
  have each : (∀ t ∈ cells.map CellVal.bytes, Utf8.valid t = true) ↔
      ∀ t ∈ cells.map CellVal.bytes, ∀ byte ∈ t.head?, ¬ Utf8.Tail byte :=
    Utf8.all_valid_iff ok
  rw [List.forall_mem_map, List.forall_mem_map] at each
  rw [← each]
  constructor
  · intro valid cell mem
    obtain ⟨i, here⟩ := List.mem_iff_getElem?.mp mem
    rw [← slices.slice i cell here]
    exact valid i (List.getElem?_eq_some_iff.mp here).1
  · intro valid i within
    rw [slices.slice i _ (List.getElem?_eq_getElem within)]
    exact valid _ (List.getElem_mem within)

/-- No text of the cells starts in the middle of a character. -/
def Starts (kind : ArrowKind) (cells : List CellVal) : Prop :=
  kind = .utf8 → ∀ cell ∈ cells, ∀ byte ∈ cell.bytes.head?, ¬ Utf8.Tail byte

theorem columnOk_iff
    (small : ∀ d, (colOf cells kind).varlen? = some d → d.length ≤ 2 ^ 31 - 1)
    (texts : ∀ d, (colOf cells kind).text? = some d → Utf8.valid d = true) :
    ColumnOk cells kind (colOf cells kind).sealCol.1 ↔ Starts kind cells := by
  cases kind with
  | utf8 =>
      have slices := varlenOk (small _ rfl)
      have each := slices_valid_iff slices (texts _ rfl)
      constructor
      · intro ok _
        exact each.mp ok.2.2
      · intro starts
        exact ⟨validityOk, slices, each.mpr (starts rfl)⟩
  | binary =>
      have ok : ColumnOk cells .binary (colOf cells .binary).sealCol.1 :=
        ⟨validityOk, varlenOk (small _ rfl)⟩
      exact iff_of_true ok ArrowKind.noConfusion
  | bool =>
      have ok : ColumnOk cells .bool (colOf cells .bool).sealCol.1 := ⟨validityOk, flagsOk⟩
      exact iff_of_true ok ArrowKind.noConfusion
  | _ => exact iff_of_true ⟨validityOk, rfl⟩ ArrowKind.noConfusion

/-- No text of the rows starts in the middle of a character. -/
def NoSplit (kinds : List ArrowKind) (rows : List (List CellVal)) : Prop :=
  ∀ c kind, kinds[c]? = some kind → Starts kind (column rows c)

theorem Holds.wellFormed_iff (holds : Holds kinds b rows) (is : b.sealBatch = .ok (batch, b')) :
    WellFormed kinds rows batch ↔ NoSplit kinds rows := by
  obtain ⟨offsets, texts, is, -, -⟩ := sealBatch_ok is
  subst is
  have col (c : Nat) (kind : ArrowKind) (here : kinds[c]? = some kind) :
      ColumnOk (column rows c) kind (colOf (column rows c) kind).sealCol.1 ↔
        Starts kind (column rows c) := by
    have mem := List.mem_of_getElem? (holds.col c kind here)
    apply columnOk_iff
    · intro d is
      exact small_of_checkOffsets offsets mem is
    · intro d is
      exact valid_of_checkUtf8 texts mem is
  have at_ (c : Nat) (kind : ArrowKind) (here : kinds[c]? = some kind) :
      (b.cols.map fun col => col.sealCol.1)[c]? = some (colOf (column rows c) kind).sealCol.1 := by
    rw [List.getElem?_map, holds.col c kind here, Option.map_some]
  constructor
  · intro ok c kind here
    exact (col c kind here).mp (ok.col c kind _ here (at_ c kind here))
  · intro starts
    refine ⟨holds.count, by rw [List.length_map, holds.cols], ?_⟩
    intro c kind sealed_ here is
    rw [at_ c kind here] at is
    cases is
    exact (col c kind here).mpr (starts c kind here)

/-! ## Whole runs -/

/-- The builders a run comes to, with the rows since the last seal: tuples are staged and rows of
cells appended in any order, and batches leave between them. -/
inductive Reached (kinds : List ArrowKind) (batchBytes : Nat) :
    BatchBuilder → List (List CellVal) → Prop where
  | new : Reached kinds batchBytes (.new kinds batchBytes) []
  | staged {b b' : BatchBuilder} {rows : List (List CellVal)}
      (staged : List (List (Option Bytes))) (before : Reached kinds batchBytes b rows)
      (is : b.decodeStaged staged = .ok b') :
      Reached kinds batchBytes b' (rows ++ staged.map (rowOf kinds))
  | row {b b' : BatchBuilder} {rows : List (List CellVal)} (row : List CellVal)
      (before : Reached kinds batchBytes b rows) (full : row.length = kinds.length)
      (is : b.appendCells 0 row = some b') : Reached kinds batchBytes b'.rowDone (rows ++ [row])
  | framed {b : BatchBuilder} {rows : List (List CellVal)} (buf : Bytes) (inSpan : Bool)
      (frLeft : Nat) (before : Reached kinds batchBytes b rows) :
      Reached kinds batchBytes { b with buf := buf, inSpan := inSpan, frLeft := frLeft } rows
  | sealed {b b' : BatchBuilder} {rows : List (List CellVal)} {batch : ArrowBatch}
      (before : Reached kinds batchBytes b rows)
      (is : b.takeReady = .ok (some batch, b') ∨ b.finish = .ok (some batch, b')) :
      Reached kinds batchBytes b' []

theorem sealBatch_of_takeReady (is : b.takeReady = .ok (some batch, b')) :
    b.sealBatch = .ok (batch, b') := by
  rw [BatchBuilder.takeReady] at is
  split at is
  · cases is
  · obtain ⟨⟨batch, b'⟩, is, same⟩ := map_eq_ok.mp is
    cases same
    exact is

theorem sealBatch_of_finish (is : b.finish = .ok (some batch, b')) :
    b.sealBatch = .ok (batch, b') := by
  rw [BatchBuilder.finish] at is
  split at is
  · cases is
  · split at is
    · cases is
    · obtain ⟨⟨batch, b'⟩, is, same⟩ := map_eq_ok.mp is
      cases same
      exact is

theorem sealBatch_of_either
    (is : b.takeReady = .ok (some batch, b') ∨ b.finish = .ok (some batch, b')) :
    b.sealBatch = .ok (batch, b') :=
  is.elim sealBatch_of_takeReady sealBatch_of_finish

theorem Reached.holds {batchBytes : Nat} (reached : Reached kinds batchBytes b rows) :
    Holds kinds b rows := by
  induction reached with
  | new => exact holds_new
  | staged _ _ is ih => exact ih.staged is
  | row _ _ full is ih => exact ih.row full is
  | framed buf inSpan frLeft _ ih => exact ih.framed buf inSpan frLeft
  | sealed _ is ih => exact ih.sealed (sealBatch_of_either is)

/-- A batch that leaves is well formed exactly if no text of its rows starts in the middle of a
character. -/
theorem wellFormed_iff_noSplit {batchBytes : Nat} (reached : Reached kinds batchBytes b rows)
    (is : b.takeReady = .ok (some batch, b') ∨ b.finish = .ok (some batch, b')) :
    WellFormed kinds rows batch ↔ NoSplit kinds rows :=
  reached.holds.wellFormed_iff (sealBatch_of_either is)

/-- Two rows of text behind the other, and the batch they leave in. -/
def textBatch (off : List Int) (d : Bytes) (sealed_ : Nat) : ArrowBatch × BatchBuilder :=
  (⟨2, [.utf8 none off d]⟩, ⟨[.utf8 none [0] []], 1, varlenSeal, 0, sealed_, [], false, 0⟩)

theorem wellFormed_iff_noSplit_words :
    WellFormed [.utf8] [[.str [0xC3, 0xA9]], [.str [0x61]]]
      (textBatch [0, 2, 3] [0xC3, 0xA9, 0x61] 2).1 := by
  have reached : Reached [.utf8] 1
      ⟨[.utf8 none [0, 2, 3] [0xC3, 0xA9, 0x61]], 1, varlenSeal, 2, 0, [], false, 0⟩
      [[.str [0xC3, 0xA9]], [.str [0x61]]] :=
    .staged [[some [0xC3, 0xA9]], [some [0x61]]] .new rfl
  have leaves : Except.ok (some (textBatch [0, 2, 3] [0xC3, 0xA9, 0x61] 2).1,
      (textBatch [0, 2, 3] [0xC3, 0xA9, 0x61] 2).2) = BatchBuilder.takeReady
        ⟨[.utf8 none [0, 2, 3] [0xC3, 0xA9, 0x61]], 1, varlenSeal, 2, 0, [], false, 0⟩ := rfl
  apply (wellFormed_iff_noSplit reached (.inl leaves.symm)).mpr
  intro c kind here _
  cases c with
  | zero =>
      intro cell mem
      cases mem with
      | head => exact Utf8.head_of_valid rfl
      | tail _ later =>
          cases later with
          | head => exact Utf8.head_of_valid rfl
          | tail _ none => cases none
  | succ c => cases here

/-- Two rows of one byte each that are one character together. -/
theorem split_text_sealed :
    ∃ (b b' : BatchBuilder) (batch : ArrowBatch),
      Reached [.utf8] 1 b [[.str [0xC3]], [.str [0xA9]]] ∧
        b.takeReady = .ok (some batch, b') ∧
          ¬ WellFormed [.utf8] [[.str [0xC3]], [.str [0xA9]]] batch := by
  have reached : Reached [.utf8] 1
      ⟨[.utf8 none [0, 1, 2] [0xC3, 0xA9]], 1, varlenSeal, 2, 0, [], false, 0⟩
      [[.str [0xC3]], [.str [0xA9]]] :=
    .staged [[some [0xC3]], [some [0xA9]]] .new rfl
  refine ⟨_, (textBatch [0, 1, 2] [0xC3, 0xA9] 2).2, (textBatch [0, 1, 2] [0xC3, 0xA9] 2).1,
    reached, rfl, ?_⟩
  intro ok
  have texts := (ok.col 0 .utf8 _ rfl rfl).2.2 0 (by decide)
  exact Bool.noConfusion (texts : Utf8.valid [0xC3] = true)

end Apitap.Arrow
