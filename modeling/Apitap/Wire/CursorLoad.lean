import Apitap.Wire.CursorValue
import Apitap.Wire.ParquetRuns

/-!
# Loads with a cursor

A load has a pipe for each of its readers, and every pipe an encoder: rows go into its
builders, row groups and files are closed where the bound is met or the caller says. The
watermark of a pipe is kept with its rows, and the load's is the best of the pipes'.
-/

namespace Apitap.Parquet

open Foundation
open Champion (keepBest Best best_nil best_one)
open Mysource (Text)
open Plan (xWins wmMax)

/-- A row into the builders, and a flush where it fills them. -/
def Builders.takeRow (cfg : Config) (s : Builders) (fs : List (Option Bytes)) :
    Except (Stop Error) Builders :=
  (cfg.fields 0 s.cols s.wm fs).bind fun row =>
    let s := { s with cols := row.1, groupBytes := s.groupBytes + row.2.1, wm := row.2.2 }
    if cfg.rowGroup ≤ s.groupBytes then s.flushRowGroup cfg else .ok s

/-- An encoder's set-up, as a sink makes it. -/
structure Lane where
  cfg : Config
  column : Nat
  delivered : Delivered
  sink : Sink
  cursor_is : cfg.cursor = some (column, sink.numeric delivered)
  there : cfg.delivered[column]? = some delivered

namespace Lane

variable (lane : Lane)

/-- A row that holds a finite value or NULL in the cursor's column. -/
structure Row where
  fields : List (Option Bytes)
  value : Option (Held lane.delivered)
  count : fields.length = lane.cfg.delivered.length
  shown : fields[lane.column]? = some (value.map Held.field)

inductive Step where
  | row (r : lane.Row)
  | flush
  | finish

def step : lane.Step → Builders → Except (Stop Error) Builders
  | .row r, s => s.takeRow lane.cfg r.fields
  | .flush, s => s.flushRowGroup lane.cfg
  | .finish, s => (s.finishFile lane.cfg).map Prod.fst

def steps : Builders → List lane.Step → Except (Stop Error) Builders
  | s, [] => .ok s
  | s, a :: rest => (lane.step a s).bind fun s => steps s rest

/-- One encoder, with its last file closed. -/
def pipe (rest : List lane.Step) : Except (Stop Error) Builders :=
  (lane.steps (.new lane.cfg) rest).bind (lane.step .finish)

def load : List (List lane.Step) → Except (Stop Error) (List Builders)
  | [] => .ok []
  | p :: ps => (lane.pipe p).bind fun s => (load ps).map (s :: ·)

/-- The freshest cursor value a load shipped. -/
def freshest (loaded : List Builders) : Option Text :=
  loaded.foldl (fun acc s => wmMax acc s.wm (lane.sink.numeric lane.delivered)) none

variable {lane}

def Step.rows : lane.Step → List lane.Row
  | .row r => [r]
  | _ => []

/-- The numbers of the cursor's values. -/
def numbers (rows : List lane.Row) : List Int := rows.filterMap fun r => r.value.map Held.number

/-- A row whose cells all decode and, in the cursor's column, render. -/
def Taken (r : lane.Row) : Prop := ∃ cells, lane.cfg.tuple r.fields = .ok cells

/-- Of two cursor texts the one that is kept. -/
abbrev wins (lane : Lane) (x y : Text) : Bool := xWins x y (lane.sink.numeric lane.delivered)

end Lane

/-! ## The watermark of a row -/

theorem wmMax_eq (numeric : Bool) (a b : Option Text) :
    wmMax a b numeric = keepBest (fun x y => xWins x y numeric) a b := by
  cases a with
  | none => cases b <;> rfl
  | some x => cases b <;> rfl

/-- The watermark behind a cursor's cell. -/
def Marked (chrono : Chrono) (numeric : Bool) (d : Delivered) (wm wm' : Option Text) :
    Option Bytes → Prop
  | none => wm' = wm
  | some f => ∃ t, renderCursor chrono d f = .ok t ∧ wm' = wmMax wm (some t) numeric

variable {cfg : Config} {i idx : Nat} {numeric : Bool} {wm : Option Text}

theorem cell_marked {c : Column} {field : Option Bytes} {one : Column × Nat × Option Text}
    (cursor : cfg.cursor = some (idx, numeric)) (took : cfg.cell i c wm field = .ok one) :
    (i ≠ idx → one.2.2 = wm) ∧
      (i = idx → Marked cfg.chrono numeric c.delivered wm one.2.2 field) := by
  cases field with
  | none =>
      rw [Config.cell] at took
      split at took
      · cases took
      · split at took
        · cases took
        · cases took
          exact ⟨fun _ => rfl, fun _ => rfl⟩
  | some f =>
      obtain ⟨pushed, -, took⟩ := bind_eq_ok.mp took
      obtain ⟨w, marked, rfl⟩ := map_eq_ok.mp took
      rw [Config.mark, cursor] at marked
      dsimp only at marked
      split at marked
      case isTrue same =>
          obtain ⟨t, rendered, rfl⟩ := map_eq_ok.mp marked
          exact ⟨fun differ => absurd same differ, fun _ => ⟨t, rendered, rfl⟩⟩
      case isFalse differ =>
          cases marked
          exact ⟨fun _ => rfl, fun same => absurd same differ⟩

/-- Columns behind the cursor's leave the watermark. -/
theorem fields_behind {cols : List Column} {fs : List (Option Bytes)}
    {r : List Column × Nat × Option Text} (cursor : cfg.cursor = some (idx, numeric))
    (behind : idx < i) (took : cfg.fields i cols wm fs = .ok r) : r.2.2 = wm := by
  induction cols generalizing i wm fs r with
  | nil =>
      cases took
      rfl
  | cons c cs ih =>
      cases fs with
      | nil =>
          cases took
          rfl
      | cons f fs =>
          obtain ⟨one, first, took⟩ := bind_eq_ok.mp took
          obtain ⟨more, later, rfl⟩ := map_eq_ok.mp took
          have rest := ih (by omega) later
          exact rest.trans ((cell_marked cursor first).1 (by omega))

/-- A row's watermark is its cursor cell's. -/
theorem fields_marked {cols : List Column} {fs : List (Option Bytes)} {k : Nat} {c : Column}
    {field : Option Bytes} {r : List Column × Nat × Option Text}
    (cursor : cfg.cursor = some (i + k, numeric)) (column : cols[k]? = some c)
    (shown : fs[k]? = some field) (took : cfg.fields i cols wm fs = .ok r) :
    Marked cfg.chrono numeric c.delivered wm r.2.2 field := by
  induction k generalizing i wm cols fs r with
  | zero =>
      cases cols with
      | nil => cases column
      | cons a cs =>
          cases fs with
          | nil => cases shown
          | cons f fs =>
              cases column
              cases shown
              obtain ⟨one, first, took⟩ := bind_eq_ok.mp took
              obtain ⟨more, later, rfl⟩ := map_eq_ok.mp took
              have rest := fields_behind cursor (Nat.lt_succ_self i) later
              show Marked _ _ _ _ more.2.2 _
              rw [rest]
              exact (cell_marked cursor first).2 rfl
  | succ k ih =>
      cases cols with
      | nil => cases column
      | cons a cs =>
          cases fs with
          | nil => cases shown
          | cons f fs =>
              obtain ⟨one, first, took⟩ := bind_eq_ok.mp took
              obtain ⟨more, later, rfl⟩ := map_eq_ok.mp took
              have same : one.2.2 = wm := (cell_marked cursor first).1 (by omega)
              have next : cfg.cursor = some (i + 1 + k, numeric) := by
                rw [cursor, Nat.add_assoc, Nat.add_comm 1 k]
              have rest := ih next column shown later
              rw [same] at rest
              exact rest

/-! ## Runs -/

namespace Lane

variable {lane : Lane} {rows : List lane.Row} {s : Builders}

/-- Builders that hold the rows taken, and the text of the best of their cursor's values. -/
structure Tracks (rows : List lane.Row) (s : Builders) : Prop where
  kept : ∃ cells, (rows.map Row.fields).mapM lane.cfg.tuple = .ok cells ∧
    Keeps lane.cfg cells s
  best : Best lane.wins (cursorText lane.delivered) (numbers rows) s.wm

theorem tracks_new (lane : Lane) : Tracks ([] : List lane.Row) (.new lane.cfg) where
  kept := ⟨[], rfl, keeps_new lane.cfg⟩
  best := best_nil

theorem numbers_append (rows more : List lane.Row) :
    numbers (rows ++ more) = numbers rows ++ numbers more := List.filterMap_append

theorem flush_wm {cfg : Config} {s t : Builders} (flushed : s.flushRowGroup cfg = .ok t) :
    t.wm = s.wm := by
  rw [Builders.flushRowGroup] at flushed
  split at flushed
  · cases flushed
    rfl
  · dsimp only at flushed
    split at flushed
    · obtain ⟨batch, -, rfl⟩ := map_eq_ok.mp flushed
      rfl
    · cases flushed
      rfl

theorem finish_wm {cfg : Config} {s t : Builders} {n : Option Nat}
    (finished : s.finishFile cfg = .ok (t, n)) : t.wm = s.wm := by
  obtain ⟨u, flushed, is⟩ := map_eq_ok.mp finished
  rw [← flush_wm flushed]
  split at is
  · cases is
    rfl
  · cases is
    rfl

theorem Tracks.flush (tracks : Tracks rows s) :
    ∃ t, s.flushRowGroup lane.cfg = .ok t ∧ Tracks rows t := by
  obtain ⟨cells, given, kept⟩ := tracks.kept
  obtain ⟨t, flushed, still, -, -⟩ := kept.flush
  refine ⟨t, flushed, ⟨cells, given, still⟩, ?_⟩
  rw [flush_wm flushed]
  exact tracks.best

theorem Tracks.finish (tracks : Tracks rows s) :
    ∃ t, lane.step .finish s = .ok t ∧ Tracks rows t ∧ Emptied t ∧ t.open = [] := by
  obtain ⟨cells, given, kept⟩ := tracks.kept
  obtain ⟨t, file, finished, still, empty, closed, -⟩ := kept.finish
  refine ⟨t, ?_, ⟨⟨cells, given, still⟩, ?_⟩, empty, closed⟩
  · rw [step, finished]
    rfl
  · rw [finish_wm finished]
    exact tracks.best

/-- The text of a row's cursor value is the better one or not. -/
theorem Tracks.marked {r : lane.Row} {wm : Option Text} (tracks : Tracks rows s)
    (marked : Marked lane.cfg.chrono (lane.sink.numeric lane.delivered) lane.delivered s.wm wm
      (r.value.map Held.field)) :
    Best lane.wins (cursorText lane.delivered) (numbers (rows ++ [r])) wm := by
  have ranked := ranked_cursorText lane.sink lane.delivered
  rw [numbers_append]
  cases value : r.value with
  | none =>
      have none : numbers [r] = [] := by simp [numbers, value]
      rw [value] at marked
      rw [none, List.append_nil, show wm = s.wm from marked]
      exact tracks.best
  | some v =>
      have one : numbers [r] = [v.number] := by simp [numbers, value]
      rw [value] at marked
      obtain ⟨t, rendered, rfl⟩ := marked
      rw [one, wmMax_eq, renderCursor_denotes v.denotes rendered]
      exact tracks.best.merge ranked (best_one ranked v.number)

theorem Tracks.row (tracks : Tracks rows s) (r : lane.Row) :
    (∃ t, s.takeRow lane.cfg r.fields = .ok t ∧ Tracks (rows ++ [r]) t) ∨
      (∃ e, s.takeRow lane.cfg r.fields = .error e) ∧ ¬ Taken r := by
  obtain ⟨cells, given, kept⟩ := tracks.kept
  have same : r.fields.length = s.cols.length := r.count.trans kept.count.symm
  rw [Builders.takeRow]
  cases took : lane.cfg.fields 0 s.cols s.wm r.fields with
  | error e =>
      refine .inr ⟨⟨e, rfl⟩, ?_⟩
      rintro ⟨row, values⟩
      rw [Config.tuple, ← kept.delivered] at values
      obtain ⟨x, fields⟩ := fields_ok s.wm kept.shaped same values
      rw [took] at fields
      cases fields
  | ok x =>
      obtain ⟨row, values, grown⟩ := kept.row same took
      obtain ⟨c, column, is⟩ : ∃ c, s.cols[lane.column]? = some c ∧
        c.delivered = lane.delivered := by
        have there := lane.there
        rw [← kept.delivered, List.getElem?_map] at there
        exact Option.map_eq_some_iff.mp there
      have cursor : lane.cfg.cursor =
          some (0 + lane.column, lane.sink.numeric lane.delivered) := by
        rw [Nat.zero_add]
        exact lane.cursor_is
      have marked := fields_marked cursor column r.shown took
      rw [is] at marked
      have all : ((rows ++ [r]).map Row.fields).mapM lane.cfg.tuple =
          .ok (cells ++ [row]) := by
        rw [List.map_append, mapM_append, given, Stop.ok_bind, List.map_cons,
          List.map_nil, mapM_cons, show lane.cfg.tuple r.fields = _ from values]
        rfl
      have next : Tracks (rows ++ [r])
          { s with cols := x.1, groupBytes := s.groupBytes + x.2.1, wm := x.2.2 } :=
        ⟨⟨_, all, grown⟩, tracks.marked marked⟩
      rw [Stop.ok_bind]
      dsimp only
      split
      · exact .inl next.flush
      · exact .inl ⟨_, rfl, next⟩

/-- A step keeps track, or is a row that is not taken. -/
theorem Tracks.step (tracks : Tracks rows s) (a : lane.Step) :
    (∃ t, lane.step a s = .ok t ∧ Tracks (rows ++ a.rows) t) ∨
      (∃ e, lane.step a s = .error e) ∧ ∃ r ∈ a.rows, ¬ Taken r := by
  cases a with
  | row r =>
      rcases tracks.row r with ran | ⟨fails, refused⟩
      · exact .inl ran
      · exact .inr ⟨fails, r, List.mem_cons_self, refused⟩
  | flush =>
      obtain ⟨t, flushed, next⟩ := tracks.flush
      refine .inl ⟨t, flushed, ?_⟩
      rw [Step.rows, List.append_nil]
      · exact next
      · intro r no
        cases no
  | finish =>
      obtain ⟨t, finished, next, -, -⟩ := tracks.finish
      refine .inl ⟨t, finished, ?_⟩
      rw [Step.rows, List.append_nil]
      · exact next
      · intro r no
        cases no

theorem Tracks.steps (tracks : Tracks rows s) (rest : List lane.Step) :
    (∃ t, lane.steps s rest = .ok t ∧ Tracks (rows ++ rest.flatMap Step.rows) t) ∨
      (∃ e, lane.steps s rest = .error e) ∧ ∃ r ∈ rest.flatMap Step.rows, ¬ Taken r := by
  induction rest generalizing rows s with
  | nil =>
      refine .inl ⟨s, rfl, ?_⟩
      rw [List.flatMap_nil, List.append_nil]
      exact tracks
  | cons a rest ih =>
      rw [Lane.steps, List.flatMap_cons]
      rcases tracks.step a with ⟨t, ran, next⟩ | ⟨⟨e, fails⟩, r, r_mem, refused⟩
      · rw [ran, Stop.ok_bind]
        rcases ih next with ⟨u, ran, last⟩ | ⟨fails, r, r_mem, refused⟩
        · rw [List.append_assoc] at last
          exact .inl ⟨u, ran, last⟩
        · exact .inr ⟨fails, r, List.mem_append_right _ r_mem, refused⟩
      · rw [fails]
        exact .inr ⟨⟨e, rfl⟩, r, List.mem_append_left _ r_mem, refused⟩

/-- What a pipe leaves behind its last file. -/
structure Closed (rows : List lane.Row) (s : Builders) : Prop where
  tracks : Tracks rows s
  emptied : Emptied s
  «open» : s.open = []

theorem pipe_cases (rest : List lane.Step) :
    (∃ t, lane.pipe rest = .ok t ∧ Closed (rest.flatMap Step.rows) t) ∨
      (∃ e, lane.pipe rest = .error e) ∧ ∃ r ∈ rest.flatMap Step.rows, ¬ Taken r := by
  rw [pipe]
  rcases (tracks_new lane).steps rest with ⟨t, ran, tracks⟩ | ⟨⟨e, fails⟩, refused⟩
  · obtain ⟨u, finished, next, empty, closed⟩ := tracks.finish
    rw [ran]
    exact .inl ⟨u, finished, next, empty, closed⟩
  · rw [fails]
    exact .inr ⟨⟨e, rfl⟩, refused⟩

/-- All rows of a load. -/
def rowsOf (pipes : List (List lane.Step)) : List lane.Row :=
  pipes.flatMap fun p => p.flatMap Step.rows

/-- A load fails exactly on a row that is not taken, and keeps its rows otherwise. -/
theorem load_cases (pipes : List (List lane.Step)) :
    (∃ loaded, lane.load pipes = .ok loaded ∧
        List.Forall₂ (fun p s => Closed (p.flatMap Step.rows) s) pipes loaded) ∨
      (∃ e, lane.load pipes = .error e) ∧ ∃ r ∈ rowsOf pipes, ¬ Taken r := by
  induction pipes with
  | nil => exact .inl ⟨[], rfl, .nil⟩
  | cons p ps ih =>
      rw [load, rowsOf, List.flatMap_cons]
      rcases pipe_cases p with ⟨s, ran, closed⟩ | ⟨⟨e, fails⟩, r, r_mem, refused⟩
      · rw [ran, Stop.ok_bind]
        rcases ih with ⟨loaded, ran, all⟩ | ⟨⟨e, fails⟩, r, r_mem, refused⟩
        · rw [ran]
          exact .inl ⟨s :: loaded, rfl, .cons closed all⟩
        · rw [fails]
          exact .inr ⟨⟨e, rfl⟩, r, List.mem_append_right _ r_mem, refused⟩
      · rw [fails]
        exact .inr ⟨⟨e, rfl⟩, r, List.mem_append_left _ r_mem, refused⟩

theorem taken_of_values {rows : List lane.Row} {cells : List (List (Option Value))}
    (given : (rows.map Row.fields).mapM lane.cfg.tuple = .ok cells) :
    ∀ r ∈ rows, Taken r := by
  induction rows generalizing cells with
  | nil =>
      intro r no
      cases no
  | cons a rows ih =>
      obtain ⟨first, more, one, rest, rfl⟩ := mapM_cons_ok.mp given
      intro r r_mem
      rcases List.mem_cons.mp r_mem with rfl | r_mem
      · exact ⟨first, one⟩
      · exact ih rest r r_mem

/-- The rows a pipe was closed with are all taken. -/
theorem Tracks.taken (tracks : Tracks rows s) : ∀ r ∈ rows, Taken r := by
  obtain ⟨cells, given, -⟩ := tracks.kept
  exact taken_of_values given

/-- A load of rows that are all taken succeeds. -/
theorem load_ok_iff (pipes : List (List lane.Step)) :
    (∃ loaded, lane.load pipes = .ok loaded) ↔ ∀ r ∈ rowsOf pipes, Taken r := by
  rcases load_cases pipes with ⟨loaded, ran, closed⟩ | ⟨⟨e, fails⟩, r, r_mem, refused⟩
  · refine iff_of_true ⟨loaded, ran⟩ ?_
    clear ran
    induction closed with
    | nil =>
        intro r no
        cases no
    | cons first rest ih =>
        intro r r_mem
        rcases List.mem_append.mp r_mem with earlier | later
        · exact first.tracks.taken r earlier
        · exact ih r later
  · apply iff_of_false
    · rintro ⟨loaded, ran⟩
      rw [fails] at ran
      cases ran
    · intro all
      exact refused (all r r_mem)

theorem best_pipes {pipes : List (List lane.Step)} {loaded : List Builders} {acc : Option Text}
    (best : Best lane.wins (cursorText lane.delivered) (numbers rows) acc)
    (closed : List.Forall₂ (fun p s => Closed (p.flatMap Step.rows) s) pipes loaded) :
    Best lane.wins (cursorText lane.delivered) (numbers (rows ++ rowsOf pipes))
      (loaded.foldl (fun acc s => wmMax acc s.wm (lane.sink.numeric lane.delivered)) acc) := by
  induction closed generalizing rows acc with
  | nil =>
      rw [rowsOf, List.flatMap_nil, List.append_nil]
      exact best
  | cons first rest ih =>
      have merged := best.merge (ranked_cursorText lane.sink lane.delivered) first.tracks.best
      rw [← numbers_append] at merged
      rw [rowsOf, List.flatMap_cons, ← List.append_assoc, List.foldl_cons, wmMax_eq]
      exact ih merged

/-- The best of the pipes is the best of all values. -/
theorem freshest_best {pipes : List (List lane.Step)} {loaded : List Builders}
    (closed : List.Forall₂ (fun p s => Closed (p.flatMap Step.rows) s) pipes loaded) :
    Best lane.wins (cursorText lane.delivered) (numbers (rowsOf pipes)) (lane.freshest loaded) := by
  have none : Best lane.wins (cursorText lane.delivered) (numbers ([] : List lane.Row)) none :=
    best_nil
  exact best_pipes none closed

end Lane

end Apitap.Parquet
