import Mathlib.Data.List.MinMax
import Apitap.Wire.CursorFooter

/-!
# The watermark of a load

A load's watermark is the text of its largest cursor value, and what the footers of its files
give is the same or an error, exactly where no value's text comes behind the largest one's.
That fails for years that are not written with four digits, and for decimals compared as
texts.
-/

namespace Apitap.Parquet

open Foundation
open Champion (Best)
open Mysource (Text)
open Plan (xWins)

/-! ## The values in the files -/

theorem sound_stored {d : Delivered} {f : Bytes} {n : Int} (denotes : Denotes d f n) :
    Sound d (stored d n) := by
  cases d with
  | int w unsigned => exact ⟨_, rfl⟩
  | date => exact ⟨_, rfl⟩
  | dateTime utc => exact ⟨_, rfl⟩
  | decimal p s => exact ⟨_, rfl, length_beInt 16 n⟩
  | _ => exact denotes.elim

theorem decoded_sound {d : Delivered} {f : Bytes} {n : Int} {x : Option Value}
    (denotes : Denotes d f n) (is : decoded d f = .ok x) : ∃ v, x = some v ∧ Sound d v := by
  by_cases whole : Whole d
  · exact ⟨_, (decoded_denotes denotes whole is).1, sound_stored denotes⟩
  · cases d with
    | decimal p s =>
        obtain ⟨r, pushed, rfl⟩ := map_eq_ok.mp is
        obtain ⟨m, -, rfl⟩ := map_eq_ok.mp pushed
        exact ⟨_, rfl, _, rfl, length_beInt 16 m⟩
    | _ =>
        apply absurd (not_decimal _) whole
        rintro p s ⟨⟩

namespace Lane

variable {lane : Lane} {rows : List lane.Row} {s : Builders}

/-- The values in the cursor's column. -/
def held (rows : List lane.Row) : List (Held lane.delivered) := rows.filterMap Row.value

theorem numbers_eq (rows : List lane.Row) : numbers rows = (held rows).map Held.number := by
  rw [numbers, held, List.map_filterMap]

/-- A row's cell in the cursor's column. -/
theorem cursor_cell {r : lane.Row} {cells : List (Option Value)}
    (given : lane.cfg.tuple r.fields = .ok cells) :
    (r.value = none → cells.getD lane.column none = none) ∧
      ∀ h, r.value = some h → decoded lane.delivered h.field = .ok (cells.getD lane.column none) ∧
        ∃ t, renderCursor lane.cfg.chrono lane.delivered h.field = .ok t := by
  obtain ⟨d, v, at_, cell, value⟩ := rowValues_field r.count given r.shown
  obtain rfl : d = lane.delivered := Option.some.inj (at_.symm.trans lane.there)
  rw [List.getD_eq_getElem?_getD, cell, Option.getD_some]
  rw [Nat.zero_add] at value
  constructor
  · intro null
    rw [null, Option.map_none, Config.cellValue] at value
    split at value
    · cases value
    · split at value
      · cases value
      · exact (Except.ok.inj value).symm
  · intro h held
    rw [held, Option.map_some] at value
    obtain ⟨x, decodes, marked⟩ := bind_eq_ok.mp value
    obtain ⟨w, mark, rfl⟩ := map_eq_ok.mp marked
    rw [Config.mark, lane.cursor_is] at mark
    dsimp only at mark
    rw [if_pos rfl] at mark
    obtain ⟨t, rendered, -⟩ := map_eq_ok.mp mark
    exact ⟨decodes, t, rendered⟩

/-- The cursor's column as it is kept. -/
def columnValues (lane : Lane) (cells : List (List (Option Value))) : List Value :=
  (cells.map fun row => row.getD lane.column none).filterMap id

/-- Files with the values of a load's rows. -/
structure Hold (rows : List lane.Row) (vs : List Value) : Prop where
  sound : ∀ v ∈ vs, Sound lane.delivered v
  none_iff : vs = [] ↔ held rows = []
  numbers : Whole lane.delivered → vs.map (unstored lane.delivered) = Lane.numbers rows

theorem Hold.append {more : List lane.Row} {vs ws : List Value} (first : Hold rows vs)
    (second : Hold more ws) : Hold (rows ++ more) (vs ++ ws) where
  sound v v_mem := by
    rcases List.mem_append.mp v_mem with earlier | later
    · exact first.sound v earlier
    · exact second.sound v later
  none_iff := by
    rw [held, List.filterMap_append, List.append_eq_nil_iff, List.append_eq_nil_iff]
    exact and_congr first.none_iff second.none_iff
  numbers whole := by
    rw [List.map_append, numbers_append, first.numbers whole, second.numbers whole]

theorem hold_nil : Hold ([] : List lane.Row) [] where
  sound v no := by cases no
  none_iff := iff_of_true rfl rfl
  numbers _ := rfl

theorem hold_row {r : lane.Row} {cells : List (Option Value)}
    (given : lane.cfg.tuple r.fields = .ok cells) : Hold [r] (lane.columnValues [cells]) := by
  obtain ⟨null, value⟩ := cursor_cell given
  cases is : r.value with
  | none =>
      have nothing : lane.columnValues [cells] = [] := by
        rw [columnValues, List.map_singleton, null is]
        rfl
      rw [nothing]
      refine ⟨fun v no => (by cases no), ?_, fun _ => ?_⟩
      · simp [held, is]
      · simp [Lane.numbers, is]
  | some h =>
      obtain ⟨decodes, -⟩ := value h is
      obtain ⟨v, cell, sound⟩ := decoded_sound h.denotes decodes
      have one : lane.columnValues [cells] = [v] := by
        rw [columnValues, List.map_singleton, cell]
        rfl
      rw [one]
      refine ⟨?_, ?_, ?_⟩
      · intro w w_mem
        rw [List.mem_singleton.mp w_mem]
        exact sound
      · simp [held, is]
      · intro whole
        obtain ⟨kept, number⟩ := decoded_denotes h.denotes whole decodes
        rw [cell] at kept
        obtain rfl := Option.some.inj kept
        simp [Lane.numbers, is, number]

theorem hold_rows {cells : List (List (Option Value))}
    (given : (rows.map Row.fields).mapM lane.cfg.tuple = .ok cells) :
    Hold rows (lane.columnValues cells) := by
  induction rows generalizing cells with
  | nil =>
      cases given
      exact hold_nil
  | cons r rows ih =>
      obtain ⟨first, more, one, rest, rfl⟩ := mapM_cons_ok.mp given
      have both := (hold_row one).append (ih rest)
      rw [columnValues, columnValues, ← List.filterMap_append, ← List.map_append] at both
      exact both

/-- The values of a file's column, whatever its row groups. -/
theorem columnOf_flatten (i : Nat) (files : List (List (List Batch))) :
    (columnOf i files.flatten).1 = files.flatMap (fileValues i) := by
  rw [columnOf, Levels.joined]
  dsimp only
  rw [List.flatMap_map, List.flatten_eq_flatMap, List.flatMap_assoc]
  rfl

theorem column_within (lane : Lane) : lane.column < lane.cfg.delivered.length :=
  (List.getElem?_eq_some_iff.mp lane.there).1

/-- A pipe's files hold its rows. -/
theorem Closed.hold (closed : Closed rows s) :
    Hold rows (s.files.flatMap (fileValues lane.column)) ∧
      ∀ file ∈ s.files, ∀ g ∈ file, Aligned lane.cfg.delivered.length g := by
  obtain ⟨cells, given, kept⟩ := closed.tracks.kept
  have written : s.written = s.files.flatten := by
    rw [Builders.written, closed.open, List.append_nil]
  have column := kept.kept lane.column (column_within lane)
  rw [columnOf_append, columnOf_single, closed.emptied.noRows.getD, Levels.join_nil,
    written] at column
  constructor
  · rw [← columnOf_flatten, column]
    exact hold_rows given
  · intro file file_mem g g_mem
    apply kept.aligned
    rw [written]
    exact List.mem_append_left _ (List.mem_flatten.mpr ⟨file, file_mem, g_mem⟩)

theorem load_hold {pipes : List (List lane.Step)} {loaded : List Builders}
    (closed : List.Forall₂ (fun p s => Closed (p.flatMap Step.rows) s) pipes loaded) :
    Hold (rowsOf pipes) ((loaded.flatMap Builders.files).flatMap (fileValues lane.column)) ∧
      ∀ file ∈ loaded.flatMap Builders.files, ∀ g ∈ file,
        Aligned lane.cfg.delivered.length g := by
  induction closed with
  | nil => exact ⟨hold_nil, fun file no => (by cases no)⟩
  | cons first rest ih =>
      obtain ⟨hold, aligned⟩ := first.hold
      rw [rowsOf, List.flatMap_cons, List.flatMap_cons, List.flatMap_append]
      refine ⟨hold.append ih.1, ?_⟩
      intro file file_mem
      rcases List.mem_append.mp file_mem with earlier | later
      · exact aligned file earlier
      · exact ih.2 file later

/-! ## The watermark -/

/-- A value that no other is larger than. -/
def Greatest (vs : List (Held lane.delivered)) (v : Held lane.delivered) : Prop :=
  v ∈ vs ∧ ∀ u ∈ vs, u.number ≤ v.number

/-- A load fails, or its watermark is its largest cursor value's text, nothing without a value,
and the footers of its files, read in any order, give the same or an error. -/
def Watermarked (lane : Lane) (writer : Writer) (pipes : List (List lane.Step)) : Prop :=
  ∀ loaded, lane.load pipes = .ok loaded →
    (held (rowsOf pipes) = [] → lane.freshest loaded = none) ∧
    (∀ v, Greatest (held (rowsOf pipes)) v → ∃ t,
      renderCursor lane.cfg.chrono lane.delivered v.field = .ok t ∧
        lane.freshest loaded = some t) ∧
    ∀ (paths : Paths) (name cursor : String) (id : Int) (o : Option Text),
      (paths.map Prod.snd).Perm (loaded.flatMap Builders.files) →
        destDataMax lane.cfg.chrono cursor
          (footers writer (parquetField name lane.delivered id) lane.column paths) = .ok o →
          o = lane.freshest loaded

/-- A row is refused, or no value's text comes behind the largest one's. -/
def Settles (lane : Lane) (pipes : List (List lane.Step)) : Prop :=
  (∃ r ∈ rowsOf pipes, ¬ Taken r) ∨ ∀ v, Greatest (held (rowsOf pipes)) v →
    ∀ u ∈ held (rowsOf pipes), InOrder lane.sink lane.delivered u.number v.number

theorem numbers_mem {v : Held lane.delivered} (v_mem : v ∈ held rows) :
    v.number ∈ numbers rows := by
  rw [numbers_eq]
  exact List.mem_map_of_mem v_mem

theorem freshest_iff {pipes : List (List lane.Step)} {loaded : List Builders}
    (closed : List.Forall₂ (fun p s => Closed (p.flatMap Step.rows) s) pipes loaded)
    {v : Held lane.delivered} (greatest : Greatest (held (rowsOf pipes)) v) :
    lane.freshest loaded = some (cursorText lane.delivered v.number) ↔
      ∀ u ∈ held (rowsOf pipes), InOrder lane.sink lane.delivered u.number v.number := by
  rw [(freshest_best closed).eq_some_iff (fun a _ b _ => cursorText_antisymm)
    (numbers_mem greatest.1), numbers_eq]
  constructor
  · intro above u u_mem
    exact (wins_iff (greatest.2 u u_mem)).mp (above _ (List.mem_map_of_mem u_mem))
  · intro ordered n n_mem
    obtain ⟨u, u_mem, rfl⟩ := List.mem_map.mp n_mem
    exact (wins_iff (greatest.2 u u_mem)).mpr (ordered u u_mem)

/-- The rows of a load that went through have their cursor rendered. -/
theorem held_rendered {v : Held lane.delivered} (taken : ∀ r ∈ rows, Taken r)
    (v_mem : v ∈ held rows) :
    renderCursor lane.cfg.chrono lane.delivered v.field = .ok
      (cursorText lane.delivered v.number) := by
  obtain ⟨r, r_mem, is⟩ := List.mem_filterMap.mp v_mem
  obtain ⟨cells, given⟩ := taken r r_mem
  obtain ⟨-, t, rendered⟩ := (cursor_cell given).2 v is
  rw [rendered, renderCursor_denotes v.denotes rendered]

theorem settles_of_watermarked {writer : Writer} {pipes : List (List lane.Step)}
    (marked : Watermarked lane writer pipes) : Settles lane pipes := by
  rcases load_cases pipes with ⟨loaded, ran, closed⟩ | ⟨-, refused⟩
  · right
    intro v greatest
    obtain ⟨t, rendered, fresh⟩ := (marked loaded ran).2.1 v greatest
    rw [renderCursor_denotes v.denotes rendered] at fresh
    exact (freshest_iff closed greatest).mp fresh
  · exact .inl refused

theorem exists_greatest {vs : List (Held lane.delivered)} (filled : vs ≠ []) :
    ∃ v, Greatest vs v := by
  cases best : vs.argmax Held.number with
  | none => exact absurd (List.argmax_eq_none.mp best) filled
  | some v =>
      refine ⟨v, List.argmax_mem best, ?_⟩
      intro u u_mem
      exact List.le_of_mem_argmax u_mem best

/-- Without a value there is no watermark. -/
theorem best_nothing {o : Option Text} {text : Int → Text} {wins : Text → Text → Bool}
    (best : Best wins text [] o) : o = none := by
  cases o with
  | none => rfl
  | some t =>
      obtain ⟨a, a_mem, -⟩ := best.something t rfl
      cases a_mem

/-- The footers give what the pipes gave. -/
theorem footers_fresh {writer : Writer} {pipes : List (List lane.Step)} {loaded : List Builders}
    (closed : List.Forall₂ (fun p s => Closed (p.flatMap Step.rows) s) pipes loaded)
    (ordered : ∀ v, Greatest (held (rowsOf pipes)) v →
      ∀ u ∈ held (rowsOf pipes), InOrder lane.sink lane.delivered u.number v.number)
    {paths : Paths} {name cursor : String} {id : Int} {o : Option Text}
    (same : (paths.map Prod.snd).Perm (loaded.flatMap Builders.files))
    (read : destDataMax lane.cfg.chrono cursor
      (footers writer (parquetField name lane.delivered id) lane.column paths) = .ok o) :
    o = lane.freshest loaded := by
  obtain ⟨hold, aligned⟩ := load_hold closed
  have of_path {f : String × List (List Batch)} (f_mem : f ∈ paths) :
      f.2 ∈ loaded.flatMap Builders.files := same.mem_iff.mp (List.mem_map_of_mem f_mem)
  have kept {f : String × List (List Batch)} (f_mem : f ∈ paths) {w : Value}
      (w_mem : w ∈ fileValues lane.column f.2) :
      w ∈ (loaded.flatMap Builders.files).flatMap (fileValues lane.column) :=
    List.mem_flatMap.mpr ⟨f.2, of_path f_mem, w_mem⟩
  obtain ⟨zs, covers, best⟩ := destDataMax_covers lane.sink (column_within lane)
    (fun f f_mem => aligned f.2 (of_path f_mem))
    (fun f f_mem w w_mem => hold.sound w (kept f_mem w_mem)) read
  have drawn {z : Int} (z_mem : z ∈ zs) : ∃ f ∈ paths, ∃ w ∈ fileValues lane.column f.2,
      unstored lane.delivered w = z := by
    obtain ⟨vs, vs_mem, is⟩ := covers.drawn z z_mem
    obtain ⟨f, f_mem, rfl⟩ := List.mem_map.mp vs_mem
    obtain ⟨w, w_mem, number⟩ := List.mem_map.mp is
    exact ⟨f, f_mem, w, w_mem, number⟩
  by_cases none : held (rowsOf pipes) = []
  · have no_numbers : numbers (rowsOf pipes) = [] := by rw [numbers_eq, none, List.map_nil]
    have no_files : zs = [] := by
      apply List.eq_nil_iff_forall_not_mem.mpr
      intro z z_mem
      obtain ⟨f, f_mem, w, w_mem, -⟩ := drawn z_mem
      have there := kept f_mem w_mem
      rw [hold.none_iff.mpr none] at there
      cases there
    have fresh := freshest_best closed
    rw [no_numbers] at fresh
    rw [no_files] at best
    rw [best_nothing best, best_nothing fresh]
  · obtain ⟨v, greatest⟩ := exists_greatest none
    have whole : Whole lane.delivered := by
      rcases covers.whole with whole | empty
      · exact whole
      · have nothing : (loaded.flatMap Builders.files).flatMap (fileValues lane.column) = [] := by
          apply List.flatMap_eq_nil_iff.mpr
          intro file file_mem
          obtain ⟨f, f_mem, rfl⟩ := List.mem_map.mp (same.mem_iff.mpr file_mem)
          exact empty _ (List.mem_map_of_mem f_mem)
        exact absurd (hold.none_iff.mp nothing) none
    have numbers_are := hold.numbers whole
    have held_of {z : Int} (z_mem : z ∈ zs) : ∃ u ∈ held (rowsOf pipes), u.number = z := by
      obtain ⟨f, f_mem, w, w_mem, rfl⟩ := drawn z_mem
      have there := List.mem_map_of_mem (f := unstored lane.delivered) (kept f_mem w_mem)
      rw [numbers_are, numbers_eq] at there
      exact List.mem_map.mp there
    have largest : v.number ∈ zs := by
      have there := numbers_mem greatest.1
      rw [← numbers_are] at there
      obtain ⟨w, w_mem, number⟩ := List.mem_map.mp there
      obtain ⟨file, file_mem, w_mem⟩ := List.mem_flatMap.mp w_mem
      obtain ⟨f, f_mem, rfl⟩ := List.mem_map.mp (same.mem_iff.mpr file_mem)
      obtain ⟨z, z_mem, le⟩ := covers.bounds _ (List.mem_map_of_mem f_mem) v.number
        (number ▸ List.mem_map_of_mem w_mem)
      obtain ⟨u, u_mem, rfl⟩ := held_of z_mem
      rwa [le_antisymm le (greatest.2 u u_mem)]
    have text : o = some (cursorText lane.delivered v.number) := by
      apply (best.eq_some_iff (fun a _ b _ => cursorText_antisymm) largest).mpr
      intro z z_mem
      obtain ⟨u, u_mem, rfl⟩ := held_of z_mem
      exact (wins_iff (greatest.2 u u_mem)).mpr (ordered v greatest u u_mem)
    rw [text, (freshest_iff closed greatest).mpr (ordered v greatest)]

theorem watermarked_of_settles {writer : Writer} {pipes : List (List lane.Step)}
    (settles : Settles lane pipes) : Watermarked lane writer pipes := by
  intro loaded ran
  have taken := (load_ok_iff pipes).mp ⟨loaded, ran⟩
  rcases load_cases pipes with ⟨loaded', ran', closed⟩ | ⟨⟨e, fails⟩, -⟩
  · obtain rfl : loaded = loaded' := Except.ok.inj (ran.symm.trans ran')
    have ordered := settles.resolve_left (by
      rintro ⟨r, r_mem, refused⟩
      exact refused (taken r r_mem))
    refine ⟨?_, ?_, ?_⟩
    · intro none
      have fresh := freshest_best closed
      rw [numbers_eq, none, List.map_nil] at fresh
      exact best_nothing fresh
    · intro v greatest
      exact ⟨_, held_rendered taken greatest.1, (freshest_iff closed greatest).mpr
        (ordered v greatest)⟩
    · intro paths name cursor id o same read
      exact footers_fresh closed ordered same read
  · rw [fails] at ran
    cases ran

/-- A load's watermark is the text of its largest value, and the footers' too, exactly where a
row is refused or the largest value's text comes last. -/
theorem watermark_is_largest_iff (lane : Lane) (writer : Writer) (pipes : List (List lane.Step)) :
    Watermarked lane writer pipes ↔ Settles lane pipes :=
  ⟨settles_of_watermarked, watermarked_of_settles⟩

/-- Dates and timestamps of the years 0 to 9999 give their largest value. -/
theorem settles_of_plain {pipes : List (List lane.Step)} {utc : Bool}
    (dated : lane.delivered = .date ∨ lane.delivered = .dateTime utc)
    (plain : ∀ v ∈ held (rowsOf pipes),
      0 ≤ yearOf lane.delivered v.number ∧ yearOf lane.delivered v.number ≤ 9999) :
    Settles lane pipes := by
  right
  intro v greatest u u_mem
  exact inOrder_of_plain dated (greatest.2 u u_mem) (plain u u_mem).1 (plain v greatest.1).2

end Lane

/-! ## A load that starts again too low -/

def largestOf (l : List Int) : Option Int := l.foldr (fun z o => larger (some z) o) none

theorem largest_largestOf (l : List Int) : Largest l (largestOf l) := by
  induction l with
  | nil => exact Champion.best_nil
  | cons z l ih => exact (Champion.best_one ranked_larger z).merge ranked_larger ih

/-- The bytes of the largest number. -/
def largestBytes (l : List Bytes) : Option Bytes :=
  l.foldr (fun x o => Champion.keepBest (fun x y => decide (Copy.fromBeInt y ≤ Copy.fromBeInt x))
    (some x) o) none

theorem best_largestBytes (l : List Bytes) :
    Champion.Best (fun x y => decide (Copy.fromBeInt y ≤ Copy.fromBeInt x)) id l
      (largestBytes l) := by
  have ranked : Champion.RankedBy
      (fun x y : Bytes => decide (Copy.fromBeInt y ≤ Copy.fromBeInt x)) id :=
    ⟨fun a b c => ranked_larger.trans (Copy.fromBeInt a) (Copy.fromBeInt b) (Copy.fromBeInt c),
      fun a b => ranked_larger.total (Copy.fromBeInt a) (Copy.fromBeInt b)⟩
  induction l with
  | nil => exact Champion.best_nil
  | cons x l ih => exact (Champion.best_one ranked x).merge ranked ih

/-- A writer of exact statistics. -/
def exactWriter : Writer where
  stats physical b :=
    let nulls := some (b.2.count 0)
    match physical with
    | .int64 => (.int64 (largestOf (b.1.filterMap Value.asInt)), nulls)
    | .int32 => (.int32 (largestOf (b.1.filterMap Value.asInt)), nulls)
    | .fixed _ => (.fixedLen (largestBytes (b.1.filterMap Value.asBytes)), nulls)
    | _ => (.other, nulls)
  exact physical b := by
    refine ⟨?_, ?_, ?_, ?_⟩
    · cases physical <;> rfl
    · rintro rfl
      exact ⟨_, rfl, largest_largestOf _⟩
    · rintro rfl
      exact ⟨_, rfl, largest_largestOf _⟩
    · rintro n rfl
      have best := best_largestBytes (b.1.filterMap Value.asBytes)
      refine ⟨_, rfl, ?_, ?_⟩
      · intro x is
        obtain ⟨a, a_mem, rfl, -⟩ := best.something x is
        exact a_mem
      · constructor
        · intro none
          rw [best.nothing (Option.map_eq_none_iff.mp none)]
          rfl
        · intro z is
          obtain ⟨x, found, rfl⟩ := Option.map_eq_some_iff.mp is
          obtain ⟨a, a_mem, rfl, above⟩ := best.something x found
          refine ⟨Copy.fromBeInt a, List.mem_map_of_mem a_mem, rfl, ?_⟩
          intro w w_mem
          obtain ⟨y, y_mem, rfl⟩ := List.mem_map.mp w_mem
          exact above y y_mem

/-- An Iceberg load of one date column, by chrono's years. -/
def dates : Lane where
  cfg := {
    names := ["d"], delivered := [.date], cursor := some (0, false), rowGroup := 25165824
    keyCol := none, required := []
    chrono := .standard fun day => decide (-262143 ≤ (Calendar.civil day).year) &&
      decide ((Calendar.civil day).year ≤ 262142)
    key_ok := by
      intro k no
      cases no }
  column := 0
  delivered := .date
  sink := .iceberg
  cursor_is := rfl
  there := rfl

theorem denotes_day {n : Int} (fits : Fits 32 n) (low : n ≠ 2 ^ 31 - 1) (high : n ≠ -2 ^ 31) :
    Denotes .date (beInt 4 n) n := ⟨fits, low, high, rfl⟩

/-- 9999-12-31. -/
def lastDay : Held .date := ⟨_, 2921939, denotes_day (by decide) (by decide) (by decide)⟩

/-- 10000-01-01. -/
def firstDay : Held .date := ⟨_, 2921940, denotes_day (by decide) (by decide) (by decide)⟩

def dayRow (v : Held .date) : dates.Row where
  fields := [some v.field]
  value := some v
  count := rfl
  shown := rfl

def newYear : List (List dates.Step) := [[.row (dayRow lastDay), .row (dayRow firstDay)]]

theorem newYear_taken : ∀ r ∈ Lane.rowsOf newYear, Lane.Taken r := by
  intro r r_mem
  rcases List.mem_cons.mp r_mem with rfl | r_mem
  · exact ⟨[some (.int 2932896)], by decide +kernel⟩
  · obtain rfl := List.mem_singleton.mp r_mem
    exact ⟨[some (.int 2932897)], by decide +kernel⟩

theorem newYear_not_watermarked : ¬ Lane.Watermarked dates exactWriter newYear := by
  intro marked
  rcases Lane.settles_of_watermarked marked with ⟨r, r_mem, refused⟩ | ordered
  · exact refused (newYear_taken r r_mem)
  · have greatest : Lane.Greatest (Lane.held (Lane.rowsOf newYear)) firstDay := by
      refine ⟨List.mem_cons_of_mem _ List.mem_cons_self, ?_⟩
      intro u u_mem
      rcases List.mem_cons.mp u_mem with rfl | u_mem
      · decide
      · rw [List.mem_singleton.mp u_mem]
    have order := ordered firstDay greatest lastDay List.mem_cons_self
    exact order (by decide +kernel)

end Apitap.Parquet
