import Apitap.Wire.BinlogDamaged
import Apitap.Wire.BinlogImages

/-!
# Table maps and rows events as a server writes them

A table map with any columns of the supported types, and rows events of either dialect under
it: their bytes are read back as the same columns and the same rows in order. An image with no
column present has no bytes, so a row is read only where an image of it has one.
-/

namespace Apitap.Rows

open Foundation
open Copy (be length_be fromBe_be)

/-! ## Counts -/

/-- A length-encoded integer. -/
def lenencWord (n : Nat) : Bytes :=
  if n < 251 then le 1 n
  else if n < 2 ^ 16 then le 1 0xFC ++ le 2 n
  else if n < 2 ^ 24 then le 1 0xFD ++ le 3 n
  else le 1 0xFE ++ le 8 n

theorem lenenc_reads {n : Nat} (fits : n < 2 ^ 64) : lenenc.Reads (lenencWord n) n := by
  rw [lenencWord]
  split
  case isTrue small =>
      refine (u8_reads_le (by omega)).andThen_nil ?_
      rw [if_neg (by omega), if_neg (by omega), if_neg (by omega)]
      exact Cursor.reads_ret n
  case isFalse =>
      split
      case isTrue two => exact (u8_reads_le (by decide)).andThen (uintLe_reads two)
      case isFalse =>
          split
          case isTrue three => exact (u8_reads_le (by decide)).andThen (uintLe_reads three)
          case isFalse => exact (u8_reads_le (by decide)).andThen (uintLe_reads fits)

/-! ## The table map -/

def Mt.code : Mt → Nat
  | .tiny => 0x01
  | .short => 0x02
  | .long => 0x03
  | .float => 0x04
  | .double => 0x05
  | .null => 0x06
  | .timestamp => 0x07
  | .longlong => 0x08
  | .int24 => 0x09
  | .date => 0x0a
  | .year => 0x0d
  | .varchar => 0x0f
  | .bit => 0x10
  | .timestamp2 => 0x11
  | .datetime2 => 0x12
  | .time2 => 0x13
  | .json => 0xf5
  | .newdecimal => 0xf6
  | .enum => 0xf7
  | .set => 0xf8
  | .tinyBlob => 0xf9
  | .mediumBlob => 0xfa
  | .longBlob => 0xfb
  | .blob => 0xfc
  | .varString => 0xfd
  | .string => 0xfe
  | .geometry => 0xff
  | .other code => code

/-- A type with a code of its own. -/
def Mt.Supported : Mt → Prop
  | .other _ => False
  | _ => True

theorem Mt.Supported.ofByte {kind : Mt} (supported : kind.Supported) :
    Mt.ofByte (UInt8.ofNat kind.code).toNat = kind := by
  cases kind with
  | other code => cases supported
  | _ => rfl

/-- A column's metadata, in as many bytes as its type has. -/
def metadataWord (kind : Mt) (metadata : Nat) : Bytes :=
  match kind with
  | .float | .double | .blob | .tinyBlob | .mediumBlob | .longBlob | .geometry | .json | .time2
  | .datetime2 | .timestamp2 => le 1 metadata
  | .varchar | .varString => le 2 metadata
  | .string | .enum | .set | .newdecimal | .bit => be 2 metadata
  | _ => []

/-- What the bytes of a column's metadata hold. -/
def MetadataFits (kind : Mt) (metadata : Nat) : Prop :=
  metadata < 256 ^ (metadataWord kind metadata).length

theorem columnMetadata_reads {kind : Mt} {metadata : Nat} (fits : MetadataFits kind metadata) :
    (columnMetadata kind).Reads (metadataWord kind metadata) metadata := by
  have lowFirst {w : Nat} (few : metadata < 256 ^ w) :
      ((metadataBytes w).andThen fun bs => .ret (fromLe bs)).Reads (le w metadata) metadata := by
    refine (Cursor.reads_take _ (length_le w metadata)).andThen_nil ?_
    rw [fromLe, le, List.reverse_reverse, fromBe_be few]
    exact Cursor.reads_ret metadata
  rw [MetadataFits] at fits
  cases kind with
  | float | double | blob | tinyBlob | mediumBlob | longBlob | geometry | json | time2 | datetime2
  | timestamp2 =>
      rw [metadataWord, length_le] at fits
      exact lowFirst fits
  | varchar | varString =>
      rw [metadataWord, length_le] at fits
      exact lowFirst fits
  | string | enum | set | newdecimal | bit =>
      rw [metadataWord, length_be] at fits
      rw [columnMetadata, metadataWord]
      refine (Cursor.reads_take _ length_be).andThen_nil ?_
      rw [fromBe_be fits]
      exact Cursor.reads_ret metadata
  | _ =>
      obtain rfl : metadata = 0 := Nat.lt_one_iff.mp fits
      exact Cursor.reads_ret 0

def nameWord (s : Bytes) : Bytes := le 1 s.length ++ (s ++ le 1 0)

theorem name_reads {s : Bytes} (short : s.length < 256) : name.Reads (nameWord s) s :=
  (u8_reads_le short).andThen ((take_reads rfl).andThen
    ((u8_reads_le (by decide)).andThen_nil (Cursor.reads_ret s)))

/-- A table map that a server can write, with its names' bytes. -/
structure TableMap.Legal (lossy : Bytes → String) (m : TableMap) (db table : Bytes) : Prop where
  tableId_lt : m.tableId < 256 ^ 6
  db_is : m.db = lossy db
  table_is : m.table = lossy table
  db_lt : db.length < 256
  table_lt : table.length < 256
  cols_lt : m.cols.length < 2 ^ 32
  supported : ∀ c ∈ m.cols, c.kind.Supported
  described : ∀ c ∈ m.cols, MetadataFits c.kind c.metadata

/-- A table map's bytes, with two of flags and what follows the bitmap. -/
def tableMapWord (m : TableMap) (db table flags more : Bytes) : Bytes :=
  le 6 m.tableId ++ (flags ++ (nameWord db ++ (nameWord table ++
    (lenencWord m.cols.length ++ ((m.cols.map fun c => UInt8.ofNat c.kind.code) ++
      (lenencWord (m.cols.flatMap fun c => metadataWord c.kind c.metadata).length ++
        (m.cols.flatMap fun c => metadataWord c.kind c.metadata) ++
          (Bitmap.pack (m.cols.map ColDef.nullable) ++ more)))))))

/-- The catalog's facts on a table's columns. -/
def catalogOf (m : TableMap) : Catalog :=
  ⟨m.cols.map ColDef.unsigned, m.cols.map ColDef.binary, m.cols.map ColDef.labels⟩

/-- A column as the table map alone describes it. -/
def ColDef.bare (c : ColDef) : ColDef :=
  { c with unsigned := false, binary := false, labels := none }

variable {m : TableMap}

/-- The catalog adds back what the table map leaves out. -/
theorem withCatalog_bare (m : TableMap) :
    ({ m with cols := m.cols.map ColDef.bare } : TableMap).withCatalog (catalogOf m) = m := by
  obtain ⟨tableId, db, table, cols⟩ := m
  rw [TableMap.withCatalog]
  simp only [TableMap.mk.injEq, true_and, catalogOf]
  refine List.ext_getElem (by simp) fun i _ inside => ?_
  simp [ColDef.bare, inside]

theorem length_metadataWord (kind : Mt) (metadata : Nat) :
    (metadataWord kind metadata).length ≤ 2 := by
  cases kind with
  | float | double | blob | tinyBlob | mediumBlob | longBlob | geometry | json | time2 | datetime2
  | timestamp2 =>
      rw [metadataWord, length_le]
      decide
  | varchar | varString =>
      rw [metadataWord, length_le]
  | string | enum | set | newdecimal | bit =>
      rw [metadataWord, length_be]
  | _ => exact Nat.zero_le 2

theorem length_metadata (cols : List ColDef) :
    (cols.flatMap fun c => metadataWord c.kind c.metadata).length ≤ 2 * cols.length := by
  induction cols with
  | nil => exact Nat.le_refl 0
  | cons c cols ih =>
      have first := length_metadataWord c.kind c.metadata
      rw [List.flatMap_cons, List.length_append, List.length_cons]
      omega

/-- A table map's columns, from what its bytes say of them. -/
theorem columns_bare (m : TableMap) :
    columns (Bitmap.pack (m.cols.map ColDef.nullable))
      ((m.cols.map ColDef.kind).zip (m.cols.map ColDef.metadata)) 0 =
        .ok (m.cols.map ColDef.bare) := by
  rw [columns_eq (by rw [Bitmap.length_pack, List.length_zip]; simp; omega)]
  congr 1
  refine List.ext_getElem (by simp) fun i _ inside => ?_
  rw [List.length_map] at inside
  simp [Bitmap.bit_pack, ColDef.bare, inside]

/-- A table map's bytes are read back, whatever follows its bitmap. -/
theorem parseTableMap_word {lossy : Bytes → String} {db table : Bytes}
    (legal : m.Legal lossy db table) {flags : Bytes} (two : flags.length = 2) (more : Bytes) :
    parseTableMap lossy (tableMapWord m db table flags more) =
      .ok { m with cols := m.cols.map ColDef.bare } := by
  have many := legal.cols_lt
  have few := length_metadata m.cols
  have kinds : ((m.cols.map fun c => UInt8.ofNat c.kind.code).map fun b => Mt.ofByte b.toNat) =
      m.cols.map ColDef.kind := by
    rw [List.map_map]
    exact List.map_congr_left fun c c_mem => (legal.supported c c_mem).ofByte
  have metadata : ((Cursor.each columnMetadata (m.cols.map ColDef.kind)
      (m.cols.flatMap fun c => metadataWord c.kind c.metadata)).map Prod.fst) =
        .ok (m.cols.map ColDef.metadata) := by
    have all : (Cursor.each (fun c : ColDef => columnMetadata c.kind) m.cols).Reads
        (m.cols.flatMap fun c => metadataWord c.kind c.metadata) (m.cols.map ColDef.metadata) :=
      Cursor.reads_each fun c c_mem => columnMetadata_reads (legal.described c c_mem)
    have each : Cursor.each (fun c : ColDef => columnMetadata c.kind) m.cols =
        Cursor.each columnMetadata (m.cols.map ColDef.kind) := by
      generalize m.cols = cols
      induction cols with
      | nil => rfl
      | cons c cols ih => rw [List.map_cons, Cursor.each, Cursor.each, ih]
    have read := all []
    rw [List.append_nil, each] at read
    rw [read, Except.map]
  have reads : (tableMap lossy).Reads (le 6 m.tableId ++
    (flags ++ (nameWord db ++ (nameWord table ++
      (lenencWord m.cols.length ++ ((m.cols.map fun c => UInt8.ofNat c.kind.code) ++
        (lenencWord (m.cols.flatMap fun c => metadataWord c.kind c.metadata).length ++
          (m.cols.flatMap fun c => metadataWord c.kind c.metadata) ++
            Bitmap.pack (m.cols.map ColDef.nullable))))))))
      { m with cols := m.cols.map ColDef.bare } := by
    refine (uintLe_reads legal.tableId_lt).andThen ((take_reads two).andThen
      ((name_reads legal.db_lt).andThen ((name_reads legal.table_lt).andThen
        ((lenenc_reads (by omega)).andThen ((take_reads (List.length_map _)).andThen
          (((lenenc_reads (by omega)).andThen (take_reads rfl)).andThen ?_))))))
    rw [kinds, metadata]
    refine (Cursor.reads_lift rfl).nil_andThen
      ((take_reads (by rw [Bitmap.length_pack, List.length_map])).andThen_nil
        ((Cursor.reads_lift (columns_bare m)).nil_andThen ?_))
    rw [← legal.db_is, ← legal.table_is]
    exact Cursor.reads_ret _
  have whole := reads more
  simp only [List.append_assoc] at whole
  rw [parseTableMap, tableMapWord]
  simp only [List.append_assoc]
  rw [whole, Except.map]

/-! ## Rows events -/

/-- A row's images before and after. -/
abbrev Images := List Slot × List Slot

namespace RowOp

/-- The code of a rows event in a dialect; the second one has extra data. -/
def code (op : RowOp) (extra : Option Bytes) : Nat :=
  match op, extra with
  | insert, none => 23
  | update, none => 24
  | delete, none => 25
  | insert, some _ => 30
  | update, some _ => 31
  | delete, some _ => 32

/-- The images of a row that an event carries. -/
def word (op : RowOp) (row : Images) : Bytes :=
  match op with
  | insert => imageWord row.2
  | delete => imageWord row.1
  | update => imageWord row.1 ++ imageWord row.2

/-- The row they stand for. -/
def change (op : RowOp) (row : Images) : Change :=
  match op with
  | insert => (none, some (imageTuple row.2))
  | delete => (some (imageTuple row.1), none)
  | update => (some (imageTuple row.1), some (imageTuple row.2))

/-- The images carried are legal, and one of them has a column present. -/
def RowLegal (floats : Decimal.Floats) (cols : List ColDef) (present1 present2 : List Bool)
    (op : RowOp) (row : Images) : Prop :=
  match op with
  | insert => ImageLegal floats cols present1 row.2 ∧ ∃ s ∈ row.2, s.present = true
  | delete => ImageLegal floats cols present1 row.1 ∧ ∃ s ∈ row.1, s.present = true
  | update => (ImageLegal floats cols present1 row.1 ∧ ImageLegal floats cols present2 row.2) ∧
      ((∃ s ∈ row.1, s.present = true) ∨ ∃ s ∈ row.2, s.present = true)

end RowOp

/-- A rows event under a table's columns. -/
structure WrittenRows (floats : Decimal.Floats) (cols : List ColDef) where
  tableId : Nat
  flags : Bytes
  extra : Option Bytes
  op : RowOp
  present1 : List Bool
  present2 : List Bool
  rows : List Images
  tableId_lt : tableId < 256 ^ 6
  two : flags.length = 2
  extra_lt : ∀ e, extra = some e → e.length + 2 < 256 ^ 2
  all1 : present1.length = cols.length
  all2 : present2.length = cols.length
  legal : ∀ row ∈ rows, op.RowLegal floats cols present1 present2 row

/-- The extra data of the second dialect, with a length that counts itself. -/
def extraWord : Option Bytes → Bytes
  | none => []
  | some e => le 2 (e.length + 2) ++ e

namespace WrittenRows

variable {floats : Decimal.Floats} {cols : List ColDef} (e : WrittenRows floats cols)

def code : Nat := e.op.code e.extra

/-- What stands in front of the rows. -/
def head : Bytes :=
  le 6 e.tableId ++ (e.flags ++ (extraWord e.extra ++ (lenencWord cols.length ++
    (Bitmap.pack e.present1 ++ if e.op = .update then Bitmap.pack e.present2 else []))))

def body : Bytes := e.head ++ e.rows.flatMap e.op.word

variable {e}

theorem rowOp_code (op : RowOp) (extra : Option Bytes) : rowOp (op.code extra) = .ok op := by
  cases op with
  | insert | update | delete =>
      cases extra with
      | none => rfl
      | some e => rfl

theorem extraData_reads (op : RowOp) {extra : Option Bytes}
    (fits : ∀ e, extra = some e → e.length + 2 < 256 ^ 2) :
    ∃ read, (extraData (op.code extra)).Reads (extraWord extra) read := by
  cases extra with
  | none =>
      refine ⟨[], ?_⟩
      cases op with
      | insert | update | delete => exact Cursor.reads_ret []
  | some e =>
      have counted : (uintLe 2).andThen (fun extra => if 2 ≤ extra then take (extra - 2)
        else .ret []) =
          extraData (op.code (some e)) := by
        cases op with
        | insert | update | delete => rfl
      refine ⟨e, ?_⟩
      rw [← counted]
      refine (uintLe_reads (fits e rfl)).andThen ?_
      rw [if_pos (Nat.le_add_left 2 _), Nat.add_sub_cancel]
      exact take_reads rfl

theorem head_reads (some_col : 0 < cols.length) (many : cols.length < 2 ^ 32) :
    ∃ h : RowsHead, (rowsHead e.code e.op cols.length).Reads e.head h ∧ h.tableId = e.tableId ∧
      h.ncols = cols.length ∧ h.present1 = Bitmap.pack e.present1 ∧
        (e.op = .update → h.present2 = Bitmap.pack e.present2) := by
  obtain ⟨read, extra⟩ := extraData_reads e.op e.extra_lt
  have first : (Bitmap.pack e.present1).length = (cols.length + 7) / 8 := by
    rw [Bitmap.length_pack, e.all1]
  have second : (Bitmap.pack e.present2).length = (cols.length + 7) / 8 := by
    rw [Bitmap.length_pack, e.all2]
  refine ⟨⟨e.tableId, cols.length, Bitmap.pack e.present1,
    if e.op = .update then Bitmap.pack e.present2 else []⟩, ?_, rfl, rfl, rfl, fun update =>
      if_pos update⟩
  refine (uintLe_reads e.tableId_lt).andThen ((take_reads e.two).andThen (extra.andThen
    ((lenenc_reads (by omega)).andThen ?_)))
  rw [if_neg (by omega)]
  refine (take_reads first).andThen ?_
  split
  · exact (take_reads second).andThen_nil (Cursor.reads_ret _)
  · exact (Cursor.reads_ret []).andThen_nil (Cursor.reads_ret _)

theorem change_reads {h : RowsHead} {row : Images} (row_mem : row ∈ e.rows)
    (count : h.ncols = cols.length) (first : h.present1 = Bitmap.pack e.present1)
    (second : e.op = .update → h.present2 = Bitmap.pack e.present2) :
    (rowChange floats cols e.op h).Reads (e.op.word row) (e.op.change row) := by
  have legal := e.legal row row_mem
  generalize op : e.op = o at legal second
  rw [rowChange.eq_def]
  cases o with
  | insert =>
      simp only [count, first]
      exact (readRow_reads legal.1).andThen_nil (Cursor.reads_ret _)
  | delete =>
      simp only [count, first]
      exact (readRow_reads legal.1).andThen_nil (Cursor.reads_ret _)
  | update =>
      simp only [count, first, second rfl]
      exact (readRow_reads legal.1.1).andThen
        ((readRow_reads legal.1.2).andThen_nil (Cursor.reads_ret _))

theorem word_ne_nil {row : Images} (row_mem : row ∈ e.rows) : e.op.word row ≠ [] := by
  have legal := e.legal row row_mem
  generalize e.op = o at legal
  cases o with
  | insert => exact imageWord_ne_nil legal.2
  | delete => exact imageWord_ne_nil legal.2
  | update =>
      intro empty
      obtain ⟨before, after⟩ := List.append_eq_nil_iff.mp empty
      rcases legal.2 with some_present | some_present
      · exact imageWord_ne_nil some_present before
      · exact imageWord_ne_nil some_present after

end WrittenRows

/-- Rows of a byte at least each are read one after another, to the last byte. -/
theorem rowsLoop_words {γ : Type} {change : Read Change} {word : γ → Bytes} {value : γ → Change}
    {rows : List γ} (reads : ∀ row ∈ rows, change.Reads (word row) (value row))
    (bytes : ∀ row ∈ rows, word row ≠ []) {turns : Nat} (enough : rows.length < turns) :
    rowsLoop change turns (rows.flatMap word) = some (.ok (rows.map value)) := by
  induction rows generalizing turns with
  | nil =>
      obtain ⟨turns, rfl⟩ := Nat.exists_eq_succ_of_ne_zero (Nat.ne_of_gt enough)
      rw [List.flatMap_nil, rowsLoop, if_pos rfl]
      rfl
  | cons row rows ih =>
      obtain ⟨turns, rfl⟩ := Nat.exists_eq_succ_of_ne_zero (Nat.ne_of_gt (Nat.zero_lt_of_lt enough))
      have some_byte := bytes row List.mem_cons_self
      have here := reads row List.mem_cons_self (rows.flatMap word)
      have later : rowsLoop change turns (rows.flatMap word) = some (.ok (rows.map value)) :=
        ih (fun r r_mem => reads r (List.mem_cons_of_mem _ r_mem))
          (fun r r_mem => bytes r (List.mem_cons_of_mem _ r_mem)) (Nat.lt_of_succ_lt_succ enough)
      have shorter : (rows.flatMap word).length ≠ (word row ++ rows.flatMap word).length := by
        have positive := List.length_pos_of_ne_nil some_byte
        rw [List.length_append]
        omega
      rw [List.flatMap_cons, rowsLoop, if_neg (List.append_ne_nil_of_left_ne_nil some_byte _), here]
      simp only
      rw [if_neg shorter, later]
      rfl

/-- As many bytes as rows at least. -/
theorem length_rows {γ : Type} {word : γ → Bytes} {rows : List γ}
    (bytes : ∀ row ∈ rows, word row ≠ []) : rows.length ≤ (rows.flatMap word).length := by
  induction rows with
  | nil => exact Nat.le_refl 0
  | cons row rows ih =>
      have positive := List.length_pos_of_ne_nil (bytes row List.mem_cons_self)
      have rest := ih fun r r_mem => bytes r (List.mem_cons_of_mem _ r_mem)
      rw [List.flatMap_cons, List.length_append, List.length_cons]
      omega

/-- A rows event's bytes are read back as its rows in order. -/
theorem WrittenRows.parseRows_body {floats : Decimal.Floats} {m : TableMap}
    (e : WrittenRows floats m.cols) (some_col : 0 < m.cols.length) (many : m.cols.length < 2 ^ 32)
    {turns : Nat} (enough : e.body.length < turns) :
    parseRows floats turns e.body e.code m =
      some (.ok ⟨e.tableId, e.rows.map e.op.change⟩) := by
  obtain ⟨h, head, tableId, count, first, second⟩ := head_reads (e := e) some_col many
  have bytes : ∀ row ∈ e.rows, e.op.word row ≠ [] := fun row row_mem => word_ne_nil row_mem
  have fewer := length_rows bytes
  have looped : rowsLoop (rowChange floats m.cols e.op h) turns (e.rows.flatMap e.op.word) =
      some (.ok (e.rows.map e.op.change)) := by
    refine rowsLoop_words (fun row row_mem => change_reads row_mem count first second) bytes ?_
    rw [body, List.length_append] at enough
    omega
  rw [parseRows, show rowOp e.code = .ok e.op from rowOp_code e.op e.extra]
  simp only
  rw [body, head]
  simp only
  rw [looped, tableId]
  rfl

/-! ## Both ways -/

namespace Samples

/-- An integer column and a BINARY one. -/
def map : TableMap :=
  ⟨7, "d", "t", [⟨.long, 0, true, false, false, none⟩,
   ⟨.string, 0xfe02, true, false, true, none⟩]⟩

/-- `String::from_utf8_lossy` of ASCII bytes. -/
def ascii : Bytes → String := fun b => String.ofList (b.map fun c => Char.ofNat c.toNat)

theorem map_legal : map.Legal ascii [100] [116] where
  tableId_lt := by decide
  db_is := by decide
  table_is := by decide
  db_lt := by decide
  table_lt := by decide
  cols_lt := by decide
  supported c c_mem := by
    rcases List.mem_cons.mp c_mem with rfl | c_mem
    · trivial
    · rw [List.mem_singleton.mp c_mem]
      trivial
  described c c_mem := by
    rcases List.mem_cons.mp c_mem with rfl | c_mem
    · show 0 < 256 ^ 0
      decide
    · rw [List.mem_singleton.mp c_mem]
      show 0xfe02 < 256 ^ 2
      decide

/-- One row of -1 and a value that ends in a zero, and one of two NULLs. -/
def rows : List Images :=
  [([], [.stored (intWord 4 (-1)) (Decimal.itoaInt (-1)),
   .stored (prefixedWord 2 (stripped [1, 0])) [1, 0]]),
    ([], [.null, .null])]

/-- No float is in the samples. -/
def noFloats : Decimal.Floats := ⟨fun _ => [], fun _ => []⟩

def event : WrittenRows noFloats map.cols where
  tableId := 7
  flags := [0, 0]
  extra := some []
  op := .insert
  present1 := [true, true]
  present2 := [true, true]
  rows := rows
  tableId_lt := by decide
  two := rfl
  extra_lt e e_is := by
    obtain rfl := Option.some.inj e_is
    decide
  all1 := rfl
  all2 := rfl
  legal row row_mem := by
    rcases List.mem_cons.mp row_mem with rfl | row_mem
    · have zero : Packed noFloats ⟨.string, 0xfe02, true, false, true, none⟩
          (prefixedWord 2 (stripped [1, 0])) [1, 0] := .binary (v := [1, 0]) rfl rfl (by decide) rfl
      exact ⟨⟨.cons (.int rfl ⟨by decide, by decide⟩) (.cons zero .nil), rfl, by decide⟩, _,
        List.mem_cons_self, rfl⟩
    · rw [List.mem_singleton.mp row_mem]
      exact ⟨⟨.cons trivial (.cons trivial .nil), rfl, by decide⟩, _, List.mem_cons_self, rfl⟩

end Samples

namespace Unshown

/-- A JSON column. -/
def map : TableMap := ⟨7, "d", "t", [⟨.json, 4, true, false, false, none⟩]⟩

/-- The document `1` as the server stores it. -/
def document : Bytes := [5, 1, 0]

/-- The front of an insert of the second dialect, with the column present or not. -/
def head (present : Bool) : Bytes :=
  le 6 7 ++ [0, 0] ++ le 2 2 ++ lenencWord 1 ++ Bitmap.pack [present]

end Unshown

end Apitap.Rows
