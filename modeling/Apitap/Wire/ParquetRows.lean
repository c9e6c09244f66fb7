import Mathlib.Data.List.GetD
import Apitap.Foundation.Levels
import Apitap.Wire.ParquetEncoder

/-!
# Rows in the Parquet builders

What a row's fields decode to, each in a fresh builder, and what the builders and the row
groups written so far hold of the rows taken: every column the cells of all of them, in
order. A flush moves rows from the builders to a row group, and the key companion with them.
-/

namespace Apitap.Parquet

open Foundation
open Levels (shred join joined Even)
open Mysource (Text)

/-! ## One cell -/

theorem length_uuidText (i : Nat) (f : Bytes) : (uuidText i f).length =
    2 * f.length + (List.range' i f.length).countP fun j => j = 4 ∨ j = 6 ∨ j = 8 ∨ j = 10 := by
  induction f generalizing i with
  | nil => rfl
  | cons b f ih =>
      have two : (BinDec.pushHex [b]).length = 2 := rfl
      rw [uuidText, List.length_append, List.length_append, ih, two, List.length_cons,
        List.range'_succ, List.countP_cons]
      split <;> simp_all <;> omega

theorem length_of_sized {n : Nat} {what : String} {f g : Bytes} (is : sized n what f = .ok g) :
    g.length = n := by
  rw [sized] at is
  split at is
  case isTrue length =>
      cases is
      exact length
  case isFalse => cases is

namespace ColBuf

/-- What a builder has taken on: one value, the bytes it says. -/
structure Adds (buf : ColBuf) (r : ColBuf × Nat) : Prop where
  value : ∃ v, r.1.values = buf.values ++ [v]
  size : r.1.size = buf.size + r.2
  clear : r.1.clear = buf.clear

theorem adds_bytes (v : List Bytes) (text : Bytes) {n : Nat} (length : 48 + text.length = n) :
    Adds (.bytes v) (.bytes (v ++ [text]), n) :=
  ⟨⟨_, List.map_append⟩, by simp [size, length], rfl⟩

variable {buf : ColBuf} {d : Delivered} {f : Bytes}

/-- A field that is decoded adds one value, and as many bytes as it says. -/
theorem pushPg_adds {r : ColBuf × Nat} (pushed : buf.pushPg f d = .ok r) : Adds buf r := by
  cases buf with
  | i64 v =>
      rw [pushPg] at pushed
      split at pushed
      · cases pushed
        exact ⟨⟨_, List.map_append⟩, by simp [size, Nat.add_mul], rfl⟩
      · cases pushed
  | f32 v =>
      obtain ⟨f, -, rfl⟩ := map_eq_ok.mp pushed
      exact ⟨⟨_, List.map_append⟩, by simp [size, Nat.add_mul], rfl⟩
  | f64 v =>
      obtain ⟨f, -, rfl⟩ := map_eq_ok.mp pushed
      exact ⟨⟨_, List.map_append⟩, by simp [size, Nat.add_mul], rfl⟩
  | bool v =>
      cases pushed
      exact ⟨⟨_, List.map_append⟩, by simp [size], rfl⟩
  | dec vals scale =>
      obtain ⟨x, -, rfl⟩ := map_eq_ok.mp pushed
      exact ⟨⟨_, List.map_append⟩, by simp [size, Nat.add_mul], rfl⟩
  | date v =>
      obtain ⟨f, -, pushed⟩ := bind_eq_ok.mp pushed
      dsimp only at pushed
      split at pushed
      · cases pushed
      · obtain ⟨x, -, rfl⟩ := map_eq_ok.mp pushed
        exact ⟨⟨_, List.map_append⟩, by simp [size, Nat.add_mul], rfl⟩
  | ts v =>
      obtain ⟨f, -, pushed⟩ := bind_eq_ok.mp pushed
      dsimp only at pushed
      split at pushed
      · cases pushed
      · obtain ⟨x, -, rfl⟩ := map_eq_ok.mp pushed
        exact ⟨⟨_, List.map_append⟩, by simp [size, Nat.add_mul], rfl⟩
  | bytes v =>
      rw [pushPg.eq_def] at pushed
      dsimp only at pushed
      split at pushed
      · obtain ⟨g, is, rfl⟩ := map_eq_ok.mp pushed
        apply adds_bytes
        rw [length_uuidText, length_of_sized is]
        rfl
      · split at pushed
        · cases pushed
          exact adds_bytes v _ rfl
        · cases pushed
          exact adds_bytes v _ rfl
      · cases pushed
        exact adds_bytes v _ rfl

/-- What a field decodes to does not depend on the values before it. -/
theorem pushPg_last (buf : ColBuf) (d : Delivered) (f : Bytes) :
    (buf.pushPg f d).map (fun r => r.1.values.getLast?) =
      (buf.clear.pushPg f d).map fun r => r.1.values.getLast? := by
  have last {α : Type} (k : α → Value) (v : List α) (x : α) :
      ((v ++ [x]).map k).getLast? = (([] ++ [x]).map k).getLast? := by
    rw [List.map_append, List.getLast?_append]
    rfl
  cases buf with
  | i64 v =>
      rw [clear, pushPg, pushPg]
      split
      · exact congrArg Except.ok (last ..)
      · rfl
  | f32 v =>
      rw [clear, pushPg, pushPg]
      cases sized 4 "float4" f with
      | error e => rfl
      | ok g => exact congrArg Except.ok (last ..)
  | f64 v =>
      rw [clear, pushPg, pushPg]
      cases sized 8 "float8" f with
      | error e => rfl
      | ok g => exact congrArg Except.ok (last ..)
  | bool v => exact congrArg Except.ok (last ..)
  | dec vals scale =>
      rw [clear, pushPg, pushPg]
      cases Copy.numericToScaledI128 f scale with
      | error e => rfl
      | ok x => exact congrArg Except.ok (last ..)
  | date v =>
      rw [clear, pushPg, pushPg]
      cases sized 4 "date" f with
      | error e => rfl
      | ok g =>
          simp only [Stop.ok_bind]
          split
          · rfl
          · cases checked 32 (Copy.fromBeInt g + Copy.pgEpochDays) with
            | none => rfl
            | some x => exact congrArg Except.ok (last ..)
  | ts v =>
      rw [clear, pushPg, pushPg]
      cases sized 8 "timestamp" f with
      | error e => rfl
      | ok g =>
          simp only [Stop.ok_bind]
          split
          · rfl
          · cases checked 64 (Copy.fromBeInt g + Copy.pgEpochMicros) with
            | none => rfl
            | some x => exact congrArg Except.ok (last ..)
  | bytes v =>
      rw [clear, pushPg.eq_def, pushPg.eq_def f d (.bytes [])]
      dsimp only
      split
      · cases sized 16 "uuid" f with
        | error e => rfl
        | ok g => exact congrArg Except.ok (last ..)
      · split
        · exact congrArg Except.ok (last ..)
        · exact congrArg Except.ok (last ..)
      · exact congrArg Except.ok (last ..)

theorem clear_new (d : Delivered) : (new d).clear = new d := by cases d <;> rfl

theorem values_new (d : Delivered) : (new d).values = [] := by cases d <;> rfl

@[simp] theorem values_clear (buf : ColBuf) : buf.clear.values = [] := by cases buf <;> rfl

@[simp] theorem size_clear (buf : ColBuf) : buf.clear.size = 0 := by cases buf <;> rfl

@[simp] theorem clear_clear (buf : ColBuf) : buf.clear.clear = buf.clear := by cases buf <;> rfl

theorem size_of_values {buf : ColBuf} (none : buf.values = []) : buf.size = 0 := by
  cases buf <;> simp_all [values, size]

end ColBuf

/-- What a field decodes to in a fresh builder. -/
def decoded (d : Delivered) (f : Bytes) : Except (Stop Error) (Option Value) :=
  ((ColBuf.new d).pushPg f d).map fun r => r.1.values.getLast?

namespace Config

variable (cfg : Config)

/-- A tuple's cell in column `i`: a NULL where the column may hold one, a value that decodes
and, in the cursor's column, renders. -/
def cellValue (i : Nat) (d : Delivered) : Option Bytes → Except (Stop Error) (Option Value)
  | none =>
      if cfg.keyCol = some i then .error (.err keyNull)
      else if cfg.required.getD i false then
        .error (.err (requiredNull (cfg.names.getD i "")))
      else .ok none
  | some f => (decoded d f).bind fun v => (cfg.mark i d f none).map fun _ => v

/-- A tuple's cells from column `i` on. -/
def rowValues : Nat → List Delivered → List (Option Bytes) →
    Except (Stop Error) (List (Option Value))
  | i, d :: ds, f :: fs =>
      (cfg.cellValue i d f).bind fun c => (rowValues (i + 1) ds fs).map (c :: ·)
  | _, _, _ => .ok []

/-- The fields of a tuple into the columns, from column `i` on. -/
def fields : Nat → List Column → Option Text → List (Option Bytes) →
    Except (Stop Error) (List Column × Nat × Option Text)
  | i, c :: cs, wm, f :: fs =>
      (cfg.cell i c wm f).bind fun one =>
        (fields (i + 1) cs one.2.2 fs).map fun rest =>
          (one.1 :: rest.1, one.2.1 + rest.2.1, rest.2.2)
  | _, _, wm, _ => .ok ([], 0, wm)

end Config

/-- A column that took a cell. -/
structure Column.Took (c : Column) (v : Option Value) (t : Column) (added : Nat) : Prop where
  delivered : t.delivered = c.delivered
  clear : t.buf.clear = c.buf.clear
  batch : t.batch = Levels.join c.batch (shred [v])
  size : t.size = c.size + added

/-- The builder of a column is one for its type. -/
def Column.Shaped (c : Column) : Prop := c.buf.clear = .new c.delivered

variable {cfg : Config} {i : Nat} {c : Column} {wm : Option Text} {field : Option Bytes}

/-- Whether a cursor value renders does not depend on the watermark so far. -/
theorem mark_any {d : Delivered} {f : Bytes} (wm : Option Text) :
    (∃ w, cfg.mark i d f wm = .ok w) ↔ ∃ w, cfg.mark i d f none = .ok w := by
  rw [Config.mark, Config.mark]
  split
  · split
    · cases renderCursor cfg.chrono d f with
      | error e => simp [Except.map]
      | ok v => simp [Except.map]
    · simp
  · simp

theorem cell_took {r : Column × Nat × Option Text} (shaped : c.Shaped)
    (took : cfg.cell i c wm field = .ok r) :
    ∃ v, cfg.cellValue i c.delivered field = .ok v ∧ c.Took v r.1 r.2.1 := by
  cases field with
  | none =>
      rw [Config.cell] at took
      split at took
      · cases took
      · split at took
        · cases took
        · rename_i notKey optional
          cases took
          refine ⟨none, ?_, rfl, rfl, ?_, ?_⟩
          · rw [Config.cellValue, if_neg notKey, if_neg optional]
          · exact Prod.ext (List.append_nil _).symm rfl
          · simp [Column.size, Nat.mul_add, Nat.add_assoc]
  | some f =>
      obtain ⟨pushed, is, took⟩ := bind_eq_ok.mp took
      obtain ⟨w, marked, rfl⟩ := map_eq_ok.mp took
      have adds := ColBuf.pushPg_adds is
      obtain ⟨v, values⟩ := adds.value
      have last := ColBuf.pushPg_last c.buf c.delivered f
      rw [is, shaped] at last
      have decodes : decoded c.delivered f = .ok (some v) := by
        apply last.symm.trans
        simp [Except.map, values]
      obtain ⟨w', renders⟩ := (mark_any wm).mp ⟨w, marked⟩
      refine ⟨some v, ?_, rfl, adds.clear, ?_, ?_⟩
      · rw [Config.cellValue, decodes, Stop.ok_bind, renders]
        rfl
      · exact Prod.ext values rfl
      · simp [Column.size, adds.size]
        omega

theorem cell_ok {v : Option Value} (wm : Option Text) (shaped : c.Shaped)
    (decodes : cfg.cellValue i c.delivered field = .ok v) :
    ∃ r, cfg.cell i c wm field = .ok r := by
  cases field with
  | none =>
      rw [Config.cellValue] at decodes
      rw [Config.cell]
      split at decodes
      · cases decodes
      · split at decodes
        · cases decodes
        · rename_i notKey optional
          rw [if_neg notKey, if_neg optional]
          exact ⟨_, rfl⟩
  | some f =>
      obtain ⟨x, value, marked⟩ := bind_eq_ok.mp decodes
      obtain ⟨w, renders, -⟩ := map_eq_ok.mp marked
      obtain ⟨w', marks⟩ := (mark_any wm).mpr ⟨w, renders⟩
      have last := ColBuf.pushPg_last c.buf c.delivered f
      rw [shaped] at last
      obtain ⟨pushed, is, -⟩ := map_eq_ok.mp (last.trans value)
      rw [Config.cell, is, Stop.ok_bind, marks]
      exact ⟨_, rfl⟩

/-! ## One row -/

/-- Columns that took a row's cells. -/
structure RowTook (cols : List Column) (cells : List (Option Value)) (cols' : List Column)
    (added : Nat) : Prop where
  count : cells.length = cols.length
  delivered : cols'.map Column.delivered = cols.map Column.delivered
  shaped : ∀ c ∈ cols', c.Shaped
  batches : cols'.map Column.batch =
    List.zipWith (fun b v => Levels.join b (shred [v])) (cols.map Column.batch) cells
  size : (cols'.map Column.size).sum = (cols.map Column.size).sum + added

variable {cols : List Column} {fs : List (Option Bytes)}

theorem fields_took {r : List Column × Nat × Option Text} (shaped : ∀ c ∈ cols, c.Shaped)
    (same : fs.length = cols.length) (took : cfg.fields i cols wm fs = .ok r) :
    ∃ cells, cfg.rowValues i (cols.map Column.delivered) fs = .ok cells ∧
      RowTook cols cells r.1 r.2.1 := by
  induction cols generalizing i wm fs r with
  | nil =>
      obtain rfl : fs = [] := List.length_eq_zero_iff.mp same
      cases took
      exact ⟨[], rfl, rfl, rfl, by simp, rfl, rfl⟩
  | cons c cs ih =>
      cases fs with
      | nil => cases same
      | cons f fs =>
          obtain ⟨one, first, took⟩ := bind_eq_ok.mp took
          obtain ⟨more, later, rfl⟩ := map_eq_ok.mp took
          obtain ⟨v, value, tookOne⟩ := cell_took (shaped c List.mem_cons_self) first
          obtain ⟨cells, values, tookRest⟩ :=
            ih (fun c c_mem => shaped c (List.mem_cons_of_mem _ c_mem)) (Nat.succ.inj same) later
          refine ⟨v :: cells, ?_, ?_, ?_, ?_, ?_, ?_⟩
          · rw [List.map_cons, Config.rowValues, value, Stop.ok_bind, values]
            rfl
          · exact congrArg Nat.succ tookRest.count
          · rw [List.map_cons, List.map_cons, tookOne.delivered, tookRest.delivered]
          · intro t t_mem
            rcases List.mem_cons.mp t_mem with rfl | t_mem
            · rw [Column.Shaped, tookOne.clear, tookOne.delivered]
              exact shaped c List.mem_cons_self
            · exact tookRest.shaped t t_mem
          · rw [List.map_cons, List.map_cons, tookOne.batch, tookRest.batches]
            rfl
          · have head := tookOne.size
            have tail := tookRest.size
            simp only [List.map_cons, List.sum_cons]
            omega

theorem fields_ok {cells : List (Option Value)} (wm : Option Text) (shaped : ∀ c ∈ cols, c.Shaped)
    (same : fs.length = cols.length)
    (values : cfg.rowValues i (cols.map Column.delivered) fs = .ok cells) :
    ∃ r, cfg.fields i cols wm fs = .ok r := by
  induction cols generalizing i wm fs cells with
  | nil =>
      obtain rfl : fs = [] := List.length_eq_zero_iff.mp same
      exact ⟨_, rfl⟩
  | cons c cs ih =>
      cases fs with
      | nil => cases same
      | cons f fs =>
          obtain ⟨v, value, later⟩ := bind_eq_ok.mp values
          obtain ⟨more, rest, -⟩ := map_eq_ok.mp later
          obtain ⟨one, first⟩ := cell_ok wm (shaped c List.mem_cons_self) value
          obtain ⟨r, took⟩ := ih one.2.2
            (fun c c_mem => shaped c (List.mem_cons_of_mem _ c_mem)) (Nat.succ.inj same) rest
          rw [Config.fields, first, Stop.ok_bind, took]
          exact ⟨_, rfl⟩

/-! ## What the builders keep -/

/-- The rows of a row group. -/
def rowsIn (g : List Batch) : Nat := (g.head?.map fun b => b.2.length).getD 0

/-- A column of row groups, in order. -/
def columnOf (i : Nat) (gs : List (List Batch)) : Batch :=
  joined (gs.map fun g => g.getD i ([], []))

/-- What was handed to the data file's writers. -/
def Builders.written (s : Builders) : List (List Batch) := s.files.flatten ++ s.open

/-- The builders' own rows, as they would be written. -/
def Builders.buffered (s : Builders) : List Batch := s.cols.map Column.batch

/-- A row group with a batch for every column, each as long as the others. -/
structure Aligned (n : Nat) (g : List Batch) : Prop where
  count : g.length = n
  even : ∀ b ∈ g, Even b
  rows : ∀ b ∈ g, b.2.length = rowsIn g

/-- The builders and the files hold the rows taken. -/
structure Keeps (cfg : Config) (rows : List (List (Option Value))) (s : Builders) : Prop where
  delivered : s.cols.map Column.delivered = cfg.delivered
  shaped : ∀ c ∈ s.cols, c.Shaped
  sized : s.groupBytes = (s.cols.map Column.size).sum
  kept : ∀ i < cfg.delivered.length,
    columnOf i (s.written ++ [s.buffered]) = shred (rows.map fun r => r.getD i none)
  aligned : ∀ g ∈ s.written ++ [s.buffered], Aligned cfg.delivered.length g
  key : ∀ k ∈ cfg.keyCol,
    s.keyFiles = s.files.map (fun gs => gs.map fun g => g.getD k ([], [])) ∧
      s.keyOpen = s.open.map (fun g => g.getD k ([], [])) ∧
        s.keyRows = (s.open.map rowsIn).sum

theorem columnOf_append (i : Nat) (gs hs : List (List Batch)) :
    columnOf i (gs ++ hs) = Levels.join (columnOf i gs) (columnOf i hs) := by
  rw [columnOf, List.map_append, Levels.joined_append]
  rfl

theorem columnOf_single (i : Nat) (g : List Batch) : columnOf i [g] = g.getD i ([], []) :=
  Levels.joined_single _

theorem rowsBuffered_eq (s : Builders) : s.rowsBuffered = rowsIn s.buffered := by
  rw [Builders.rowsBuffered, rowsIn, Builders.buffered, List.head?_map, Option.map_map]
  rfl

/-- A row group of empty batches. -/
def NoRows (g : List Batch) : Prop := ∀ b ∈ g, b = ([], [])

theorem NoRows.getD {g : List Batch} (none : NoRows g) (i : Nat) :
    g.getD i ([], []) = ([], []) := by
  rcases Nat.lt_or_ge i g.length with within | beyond
  · rw [List.getD_eq_getElem _ _ within]
    exact none _ (List.getElem_mem within)
  · exact List.getD_eq_default _ _ beyond

theorem NoRows.aligned {g : List Batch} (none : NoRows g) : Aligned g.length g where
  count := rfl
  even b b_mem := by
    rw [none b b_mem]
    exact Levels.even_nil
  rows b b_mem := by
    cases g with
    | nil => cases b_mem
    | cons a g =>
        rw [none b b_mem, rowsIn, none a List.mem_cons_self]
        rfl

/-- Columns without rows are empty. -/
theorem Aligned.noRows {n : Nat} {g : List Batch} (aligned : Aligned n g) (none : rowsIn g = 0) :
    NoRows g := by
  intro b b_mem
  apply (aligned.even b b_mem).nil_of_levels
  apply List.length_eq_zero_iff.mp
  rw [aligned.rows b b_mem, none]

/-- A cell more in every column. -/
theorem Aligned.took {n : Nat} {g : List Batch} {cells : List (Option Value)}
    (aligned : Aligned n g) (count : cells.length = n) :
    Aligned n (List.zipWith (fun b v => Levels.join b (shred [v])) g cells) where
  count := by rw [List.length_zipWith, aligned.count, count, Nat.min_self]
  even b b_mem := by
    obtain ⟨j, j_lt, rfl⟩ := List.mem_iff_getElem.mp b_mem
    rw [List.getElem_zipWith]
    exact (aligned.even _ (List.getElem_mem _)).join (Levels.even_one _)
  rows b b_mem := by
    obtain ⟨j, j_lt, rfl⟩ := List.mem_iff_getElem.mp b_mem
    have longer (b : Batch) (v : Option Value) :
        (Levels.join b (shred [v])).2.length = b.2.length + 1 := by
      simp [Levels.join]
    cases g with
    | nil => simp at j_lt
    | cons a g =>
        cases cells with
        | nil => simp at j_lt
        | cons v cells =>
            rw [List.getElem_zipWith, longer, aligned.rows _ (List.getElem_mem _), rowsIn, rowsIn,
              List.zipWith_cons_cons, List.head?_cons, List.head?_cons, Option.map_some,
              Option.map_some, Option.getD_some, Option.getD_some, longer]

theorem noRows_new (cfg : Config) : NoRows (Builders.new cfg).buffered := by
  intro b b_mem
  rw [Builders.buffered, Builders.new, List.map_map] at b_mem
  obtain ⟨d, -, rfl⟩ := List.mem_map.mp b_mem
  exact Prod.ext (ColBuf.values_new d) rfl

theorem keeps_new (cfg : Config) : Keeps cfg [] (Builders.new cfg) where
  delivered := by
    rw [Builders.new, List.map_map]
    exact List.map_id _
  shaped c c_mem := by
    obtain ⟨d, -, rfl⟩ := List.mem_map.mp c_mem
    exact ColBuf.clear_new d
  sized := by
    symm
    apply List.sum_eq_zero
    intro n n_mem
    obtain ⟨c, c_mem, rfl⟩ := List.mem_map.mp n_mem
    obtain ⟨d, -, rfl⟩ := List.mem_map.mp c_mem
    exact Nat.add_eq_zero_iff.mpr ⟨ColBuf.size_of_values (ColBuf.values_new d), rfl⟩
  kept i _ := by
    show columnOf i [(Builders.new cfg).buffered] = _
    rw [columnOf_single, (noRows_new cfg).getD]
    rfl
  aligned g g_mem := by
    obtain rfl : g = (Builders.new cfg).buffered := by
      simpa [Builders.written, Builders.new] using g_mem
    have aligned := (noRows_new cfg).aligned
    rw [Builders.buffered, Builders.new, List.length_map, List.length_map] at aligned
    exact aligned
  key k _ := ⟨rfl, rfl, rfl⟩

variable {s : Builders} {rows : List (List (Option Value))}

theorem Keeps.count (kept : Keeps cfg rows s) : s.cols.length = cfg.delivered.length := by
  rw [← kept.delivered, List.length_map]

/-- A row taken is kept behind the others. -/
theorem Keeps.row (kept : Keeps cfg rows s) {r : List Column × Nat × Option Text}
    (same : fs.length = s.cols.length) (took : cfg.fields 0 s.cols s.wm fs = .ok r) :
    ∃ cells, cfg.rowValues 0 cfg.delivered fs = .ok cells ∧ Keeps cfg (rows ++ [cells])
      { s with cols := r.1, groupBytes := s.groupBytes + r.2.1, wm := r.2.2 } := by
  obtain ⟨cells, values, tookRow⟩ := fields_took kept.shaped same took
  rw [kept.delivered] at values
  have count : cells.length = cfg.delivered.length := tookRow.count.trans kept.count
  have last := kept.aligned s.buffered (List.mem_append_right _ List.mem_cons_self)
  refine ⟨cells, values, ?_, tookRow.shaped, ?_, ?_, ?_, kept.key⟩
  · exact tookRow.delivered.trans kept.delivered
  · show s.groupBytes + r.2.1 = _
    rw [tookRow.size, kept.sized]
  · intro i i_lt
    have before := kept.kept i i_lt
    rw [columnOf_append, columnOf_single] at before
    have there : i < s.buffered.length := by
      rw [last.count]
      exact i_lt
    have cell : i < cells.length := by
      rw [count]
      exact i_lt
    show columnOf i (s.written ++ [r.1.map Column.batch]) = _
    rw [columnOf_append, columnOf_single, tookRow.batches, List.map_append, Levels.shred_append,
      ← before, Levels.join_assoc]
    congr 1
    change (List.zipWith _ s.buffered cells).getD i _ = _
    rw [List.getD_eq_getElem _ _ (by rw [List.length_zipWith]; omega), List.getElem_zipWith,
      List.getD_eq_getElem _ _ there, List.map_cons, List.map_nil, List.getD_eq_getElem _ _ cell]
  · intro g g_mem
    rcases List.mem_append.mp g_mem with earlier | now
    · exact kept.aligned g (List.mem_append_left _ earlier)
    · obtain rfl : g = r.1.map Column.batch := List.mem_singleton.mp now
      rw [tookRow.batches]
      exact last.took count

/-- The key column is of a type the companion takes. -/
theorem Keeps.keyBatch (kept : Keeps cfg rows s) {k : Nat} (is_key : k ∈ cfg.keyCol) :
    s.keyBatch k = .ok (s.buffered.getD k ([], [])) := by
  obtain ⟨d, d_at, takes⟩ := cfg.key_ok k is_key
  rw [← kept.delivered, List.getElem?_map] at d_at
  obtain ⟨c, c_at, rfl⟩ := Option.map_eq_some_iff.mp d_at
  have batch : s.buffered.getD k ([], []) = c.batch := by
    rw [Builders.buffered, List.getD_eq_getElem?_getD, List.getElem?_map, c_at]
    rfl
  have shaped := kept.shaped c (List.mem_of_getElem? c_at)
  rw [batch, Builders.keyBatch, c_at]
  obtain ⟨d, buf, defs⟩ := c
  change buf.clear = .new d at shaped
  cases d with
  | int w unsigned =>
      cases buf with
      | i64 v => rfl
      | _ => cases shaped
  | uuid =>
      cases buf with
      | bytes v => rfl
      | _ => cases shaped
  | text =>
      cases buf with
      | bytes v => rfl
      | _ => cases shaped
  | _ => cases takes

/-- Nothing waits in the builders. -/
structure Emptied (s : Builders) : Prop where
  noRows : NoRows s.buffered
  groupBytes : s.groupBytes = 0

theorem emptied_cleared (s : Builders) : Emptied s.cleared where
  noRows b b_mem := by
    rw [Builders.buffered, Builders.cleared, List.map_map] at b_mem
    obtain ⟨c, -, rfl⟩ := List.mem_map.mp b_mem
    exact Prod.ext c.buf.values_clear rfl
  groupBytes := rfl

/-- Without rows the builders hold no bytes. -/
theorem Keeps.emptied (kept : Keeps cfg rows s) (none : s.rowsBuffered = 0) : Emptied s := by
  rw [rowsBuffered_eq] at none
  have empty := (kept.aligned s.buffered (List.mem_append_right _ List.mem_cons_self)).noRows none
  refine ⟨empty, kept.sized.trans (List.sum_eq_zero ?_)⟩
  intro n n_mem
  obtain ⟨c, c_mem, rfl⟩ := List.mem_map.mp n_mem
  have batch := Prod.mk.inj (empty c.batch (List.mem_map_of_mem c_mem))
  exact Nat.add_eq_zero_iff.mpr ⟨ColBuf.size_of_values batch.1, by rw [batch.2]; rfl⟩

/-- The builders moved to a row group, the same rows are kept. -/
theorem Keeps.moved (kept : Keeps cfg rows s) {t : Builders} (files : t.files = s.files)
    (grown : t.open = s.open ++ [s.buffered])
    (key : ∀ k ∈ cfg.keyCol, t.keyFiles = s.keyFiles ∧
      t.keyOpen = s.keyOpen ++ [s.buffered.getD k ([], [])] ∧
        t.keyRows = s.keyRows + s.rowsBuffered)
    (cols : t.cols = s.cols.map Column.clear) (groupBytes : t.groupBytes = 0) :
    Keeps cfg rows t := by
  have written : t.written = s.written ++ [s.buffered] := by
    rw [Builders.written, Builders.written, files, grown, List.append_assoc]
  have none : NoRows t.buffered := by
    rw [Builders.buffered, cols]
    exact (emptied_cleared s).noRows
  have count : t.buffered.length = cfg.delivered.length := by
    rw [Builders.buffered, cols, List.length_map, List.length_map, kept.count]
  refine ⟨?_, ?_, ?_, ?_, ?_, ?_⟩
  · rw [cols, List.map_map]
    exact kept.delivered
  · intro c c_mem
    rw [cols] at c_mem
    obtain ⟨c, was, rfl⟩ := List.mem_map.mp c_mem
    exact c.buf.clear_clear.trans (kept.shaped c was)
  · rw [groupBytes, cols, List.map_map]
    symm
    apply List.sum_eq_zero
    intro n n_mem
    obtain ⟨c, -, rfl⟩ := List.mem_map.mp n_mem
    exact Nat.add_eq_zero_iff.mpr ⟨c.buf.size_clear, rfl⟩
  · intro i i_lt
    rw [written, columnOf_append, columnOf_single, none.getD, Levels.join_nil]
    exact kept.kept i i_lt
  · intro g g_mem
    rw [written] at g_mem
    rcases List.mem_append.mp g_mem with earlier | now
    · exact kept.aligned g earlier
    · obtain rfl : g = t.buffered := List.mem_singleton.mp now
      rw [← count]
      exact none.aligned
  · intro k is_key
    obtain ⟨keyFiles, keyOpen, keyRows⟩ := kept.key k is_key
    obtain ⟨files', open', rows'⟩ := key k is_key
    refine ⟨?_, ?_, ?_⟩
    · rw [files', files, keyFiles]
    · rw [open', grown, keyOpen, List.map_append]
      rfl
    · rw [rows', grown, keyRows, List.map_append, List.sum_append, rowsBuffered_eq]
      rfl

/-- A flush succeeds, keeps the rows and leaves the builders empty. -/
theorem Keeps.flush (kept : Keeps cfg rows s) :
    ∃ t, s.flushRowGroup cfg = .ok t ∧ Keeps cfg rows t ∧ Emptied t ∧ t.files = s.files := by
  by_cases none : s.rowsBuffered = 0
  · exact ⟨s, if_pos none, kept, kept.emptied none, rfl⟩
  · rw [Builders.flushRowGroup, if_neg none]
    dsimp only
    cases key : cfg.keyCol with
    | none =>
        refine ⟨_, rfl, kept.moved rfl rfl ?_ rfl rfl, emptied_cleared _, rfl⟩
        intro k is_key
        rw [key] at is_key
        cases is_key
    | some k =>
        have is_key : k ∈ cfg.keyCol := key
        have batch := kept.keyBatch is_key
        refine ⟨_, congrArg (Except.map _) batch, kept.moved rfl rfl ?_ rfl rfl,
          emptied_cleared _, rfl⟩
        intro k' is_key'
        obtain rfl : k = k' := Option.some.inj (is_key.symm.trans is_key')
        exact ⟨rfl, rfl, rfl⟩

/-- Closing a file succeeds: the row groups of the open one are a file, and the key file is
said to have its rows. -/
theorem Keeps.finish (kept : Keeps cfg rows s) :
    ∃ t file, s.finishFile cfg = .ok (t, cfg.keyCol.map fun _ => (file.map rowsIn).sum) ∧
      Keeps cfg rows t ∧ Emptied t ∧ t.open = [] ∧ t.files = s.files ++ [file] := by
  obtain ⟨u, flushed, still, empty, files⟩ := kept.flush
  have groups : (u.files ++ [u.open]).flatten ++ [] = u.written := by
    rw [List.flatten_append, List.append_nil, List.flatten_singleton]
    rfl
  rw [Builders.finishFile, flushed, Except.map]
  dsimp only
  cases key : cfg.keyCol with
  | none =>
      refine ⟨_, u.open, rfl, ?_, ⟨empty.noRows, empty.groupBytes⟩, rfl, ?_⟩
      · refine ⟨still.delivered, still.shaped, still.sized, ?_, ?_, ?_⟩
        · intro i i_lt
          rw [← still.kept i i_lt, ← groups]
          rfl
        · intro g g_mem
          apply still.aligned g
          rw [← groups]
          exact g_mem
        · intro k is_key
          rw [key] at is_key
          cases is_key
      · rw [← files]
  | some k =>
      have is_key : k ∈ cfg.keyCol := key
      obtain ⟨keyFiles, keyOpen, keyRows⟩ := still.key k is_key
      refine ⟨{ u with
        files := u.files ++ [u.open], «open» := [],
        keyFiles := u.keyFiles ++ [u.keyOpen], keyOpen := [], keyRows := 0 }, u.open, ?_, ?_,
        ⟨empty.noRows, empty.groupBytes⟩, rfl, ?_⟩
      · rw [Option.map_some, ← keyRows]
      · refine ⟨still.delivered, still.shaped, still.sized, ?_, ?_, ?_⟩
        · intro i i_lt
          rw [← still.kept i i_lt, ← groups]
          rfl
        · intro g g_mem
          apply still.aligned g
          rw [← groups]
          exact g_mem
        · intro k' is_key'
          obtain rfl : k = k' := Option.some.inj (is_key.symm.trans is_key')
          refine ⟨?_, rfl, rfl⟩
          show u.keyFiles ++ [u.keyOpen] = _
          rw [keyFiles, keyOpen, List.map_append]
          rfl
      · rw [← files]

end Apitap.Parquet
