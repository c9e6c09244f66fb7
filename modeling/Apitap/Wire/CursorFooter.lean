import Apitap.Wire.CursorLoad

/-!
# The largest cursor value in the footers

A file's footer has statistics for every column of every row group. The largest value of the
cursor's column is rendered from them, and the files' texts are merged like watermarks. What
the file writer puts there is a parameter, its statistics exact.
-/

namespace Apitap.Parquet

open Foundation
open Champion (keepBest RankedBy Best best_nil best_one)
open Mysource (Text)
open Copy (fromBeInt)
open Plan (xWins atLeast wmMax)

/-! ## Reading a footer -/

inductive Statistics where
  | int64 (max : Option Int)
  | int32 (max : Option Int)
  | fixedLen (max : Option Bytes)
  | byteArray (max : Option Bytes) (exact : Bool)
  | other

/-- A column in a row group: its statistics with the count of NULLs, and the group's rows. -/
structure Chunk where
  stats : Option (Statistics × Option Nat)
  rows : Nat

structure Footer where
  path : String
  rows : Nat
  physical : Physical
  logical : Option Logical
  groups : List Chunk

/-- The largest values so far, by how they are kept. -/
structure Maxima where
  i : Option Int
  s : Option Text
  d : Option Int
  counted : Bool

def noStats (cursor path : String) : Error :=
  .invalidInput ("iceberg: can't derive a bootstrap watermark for '" ++ cursor ++ "' from " ++
    path ++ " (missing/inexact column statistics) — run once with mode='replace', or use an " ++
    "integer/timestamp cursor")

def allNull (cursor : String) : Error :=
  .invalidInput ("iceberg: every row of the destination has a NULL '" ++ cursor ++ "', so there " ++
    "is no watermark to resume an append from — use a cursor the rows carry")

/-- The larger of two numbers, the only one of one. -/
def larger (a b : Option Int) : Option Int := keepBest (fun x y => decide (y ≤ x)) a b

namespace Maxima

variable (cursor path : String) (m : Maxima)

/-- One row group more; one of NULLs says nothing. -/
def group (g : Chunk) : Except (Stop Error) Maxima :=
  if (g.stats.bind Prod.snd) = some g.rows then .ok m
  else
    match g.stats.map Prod.fst with
    | some (.int64 max) => (Stop.orErr (noStats cursor path) max).map fun z =>
        { m with i := larger m.i (some z), counted := true }
    | some (.int32 max) => (Stop.orErr (noStats cursor path) max).map fun z =>
        { m with i := larger m.i (some z), counted := true }
    | some (.fixedLen max) => (Stop.orErr (noStats cursor path) max).bind fun b =>
        if b = [] ∨ 16 < b.length then .error (.err (noStats cursor path))
        else .ok { m with d := larger m.d (some (fromBeInt b)), counted := true }
    | some (.byteArray max exact) =>
        if exact = false then .error (.err (noStats cursor path))
        else
          (Stop.orErr (noStats cursor path)
            (max.bind fun b => String.fromUTF8? ⟨b.toArray⟩)).map fun t =>
              { m with s := keepBest atLeast m.s (some t.toList), counted := true }
    | _ => .error (.err (noStats cursor path))

def groups : Maxima → List Chunk → Except (Stop Error) Maxima
  | m, [] => .ok m
  | m, g :: gs => (m.group cursor path g).bind fun m => groups m gs

/-- The largest value as a watermark, and whether it compares as a number. -/
def render (chrono : Chrono) (physical : Physical) (logical : Option Logical) :
    Except (Stop Error) (Option (Text × Bool)) :=
  match physical, logical, m.i, m.s with
  | .int64, some (.timestamp utc), some z, _ =>
      (renderTsMicros chrono z utc).map fun t => some (t, false)
  | .int32, some .date, some z, _ => (renderDateDays chrono z).map fun t => some (t, false)
  | .int64, none, some z, _ => .ok (some (intText z, true))
  | .int32, none, some z, _ => .ok (some (intText z, true))
  | .int64, some (.decimal _ 0), some z, _ => .ok (some (intText z, true))
  | .int32, some (.decimal _ 0), some z, _ => .ok (some (intText z, true))
  | .fixed _, some (.decimal _ 0), _, _ =>
      match m.d with
      | some z => .ok (some (intText z, true))
      | none => .error (.err (noStats cursor path))
  | .byteArray, _, _, some t => .ok (some (t, false))
  | _, _, _, _ => .error (.err (noStats cursor path))

end Maxima

/-- The cursor column's maximum in one file. -/
def footerCursorMax (chrono : Chrono) (cursor : String) (f : Footer) :
    Except (Stop Error) (Option (Text × Bool)) :=
  if f.rows = 0 then .ok none
  else
    (Maxima.groups cursor f.path ⟨none, none, none, false⟩ f.groups).bind fun m =>
      if m.counted = false then .ok none else m.render cursor f.path chrono f.physical f.logical

/-- Over the data files: the best so far, whether a file had rows but no value. -/
def dataMax (chrono : Chrono) (cursor : String) : Option Text → Bool → List Footer →
    Except (Stop Error) (Option Text × Bool)
  | acc, nullOnly, [] => .ok (acc, nullOnly)
  | acc, nullOnly, f :: fs =>
      (footerCursorMax chrono cursor f).bind fun
        | none => dataMax chrono cursor acc (nullOnly || decide (0 < f.rows)) fs
        | some (v, num) => dataMax chrono cursor (wmMax acc (some v) num) nullOnly fs

/-- The largest cursor value of a snapshot. -/
def destDataMax (chrono : Chrono) (cursor : String) (files : List Footer) :
    Except (Stop Error) (Option Text) :=
  (dataMax chrono cursor none false files).bind fun r =>
    if files = [] then .ok none
    else if r.1 = none ∧ r.2 = true then .error (.err (allNull cursor))
    else .ok r.1

/-! ## Exact statistics -/

def Value.asInt : Value → Option Int
  | .int z => some z
  | _ => none

def Value.asBytes : Value → Option Bytes
  | .bytes b => some b
  | _ => none

/-- The largest of some numbers. -/
abbrev Largest (l : List Int) (o : Option Int) : Prop := Best (fun x y => decide (y ≤ x)) id l o

/-- The statistics a writer gives of a batch say what is in it. -/
structure ExactStats (physical : Physical) (b : Batch) (stats : Statistics) (nulls : Option Nat) :
    Prop where
  nulls : nulls = some (b.2.count 0)
  int64 : physical = .int64 → ∃ o, stats = .int64 o ∧ Largest (b.1.filterMap Value.asInt) o
  int32 : physical = .int32 → ∃ o, stats = .int32 o ∧ Largest (b.1.filterMap Value.asInt) o
  fixed : ∀ n, physical = .fixed n → ∃ o, stats = .fixedLen o ∧
    (∀ x ∈ o, x ∈ b.1.filterMap Value.asBytes) ∧
    Largest ((b.1.filterMap Value.asBytes).map fromBeInt) (o.map fromBeInt)

/-- The file writer. -/
structure Writer where
  stats : Physical → Batch → Statistics × Option Nat
  exact : ∀ physical b, ExactStats physical b (stats physical b).1 (stats physical b).2

/-- A file's footer, as far as it is of the cursor's column. -/
def Writer.footer (writer : Writer) (field : ParquetField) (i : Nat) (path : String)
    (file : List (List Batch)) : Footer where
  path := path
  rows := (file.map rowsIn).sum
  physical := field.physical
  logical := field.logical
  groups := file.map fun g => ⟨some (writer.stats field.physical (g.getD i ([], []))), rowsIn g⟩

/-! ## A row group -/

theorem ranked_larger : RankedBy (fun x y : Int => decide (y ≤ x)) id where
  trans a b c first second := by
    rw [decide_eq_true_iff] at first second ⊢
    exact second.trans first
  total a b loses := by
    rw [decide_eq_false_iff_not] at loses
    rw [decide_eq_true_iff]
    exact (not_le.mp loses).le

/-- A value as the builder of a cursor's column keeps it. -/
def Sound : Delivered → Value → Prop
  | .decimal .., v => ∃ b, v = .bytes b ∧ b.length = 16
  | .int .., v => ∃ z, v = .int z
  | .date, v => ∃ z, v = .int z
  | .dateTime _, v => ∃ z, v = .int z
  | _, _ => False

/-- Where the numbers of a type are kept. -/
def Maxima.number (d : Delivered) (m : Maxima) : Option Int :=
  match d with
  | .decimal .. => m.d
  | _ => m.i

/-- The maxima of the values read so far. -/
structure Maxima.Has (d : Delivered) (vs : List Value) (m : Maxima) : Prop where
  largest : Largest (vs.map fun v => unstored d v + shift d) (m.number d)
  counted : m.counted = true ↔ vs ≠ []

variable {d : Delivered} {writer : Writer} {name cursor path : String} {id : Int}

theorem asInt_map {vs : List Value} (sound : ∀ v ∈ vs, ∃ z, v = Value.int z) :
    vs.filterMap Value.asInt = vs.map fun v => unstored d v + shift d := by
  induction vs with
  | nil => rfl
  | cons v vs ih =>
      obtain ⟨z, rfl⟩ := sound v List.mem_cons_self
      have number : z = unstored d (.int z) + shift d := (Int.sub_add_cancel z _).symm
      have rest := ih fun w w_mem => sound w (List.mem_cons_of_mem _ w_mem)
      rw [List.map_cons, ← number, ← rest]
      rfl

theorem asBytes_map {p s : Nat} {vs : List Value}
    (sound : ∀ v ∈ vs, ∃ b, v = Value.bytes b ∧ b.length = 16) :
    (vs.filterMap Value.asBytes).map fromBeInt =
      vs.map fun v => unstored (.decimal p s) v + shift (.decimal p s) := by
  induction vs with
  | nil => rfl
  | cons v vs ih =>
      obtain ⟨b, rfl, -⟩ := sound v List.mem_cons_self
      have number : fromBeInt b = unstored (.decimal p s) (.bytes b) + shift (.decimal p s) :=
        (Int.add_zero _).symm
      have rest := ih fun w w_mem => sound w (List.mem_cons_of_mem _ w_mem)
      rw [List.map_cons, ← number, ← rest]
      rfl

/-- A group without values is skipped, and no other. -/
theorem nulls_iff {b : Batch} {n : Nat} {physical : Physical} {stats : Statistics}
    {nulls : Option Nat} (exact : ExactStats physical b stats nulls) (even : Levels.Even b)
    (rows : n = b.2.length) : nulls = some n ↔ b.1 = [] := by
  rw [exact.nulls, rows, Option.some.injEq]
  exact even.count_zero_iff

namespace Maxima

variable {m : Maxima} {nulls : Option Nat} {n : Nat} {z : Int} {x : Bytes}

theorem group_skips {stats : Statistics} (all : nulls = some n) :
    m.group cursor path ⟨some (stats, nulls), n⟩ = .ok m := if_pos all

theorem group_int64 (reads : nulls ≠ some n) :
    m.group cursor path ⟨some (.int64 (some z), nulls), n⟩ =
      .ok { m with i := larger m.i (some z), counted := true } := if_neg reads

theorem group_int32 (reads : nulls ≠ some n) :
    m.group cursor path ⟨some (.int32 (some z), nulls), n⟩ =
      .ok { m with i := larger m.i (some z), counted := true } := if_neg reads

theorem group_fixed (reads : nulls ≠ some n) (length : x.length = 16) :
    m.group cursor path ⟨some (.fixedLen (some x), nulls), n⟩ =
      .ok { m with d := larger m.d (some (fromBeInt x)), counted := true } := by
  have sized : ¬ (x = [] ∨ 16 < x.length) := by
    rintro (rfl | long)
    · cases length
    · omega
  apply (if_neg reads).trans
  exact if_neg sized

end Maxima

theorem Largest.isSome {l : List Int} {o : Option Int} (largest : Largest l o) (filled : l ≠ []) :
    ∃ z, o = some z := by
  cases o with
  | none => exact absurd (largest.nothing rfl) filled
  | some z => exact ⟨z, rfl⟩

/-- A number more among the largest. -/
theorem Maxima.Has.grow {vs ws : List Value} {m m' : Maxima} {z : Int} (has : m.Has d vs)
    (largest : Largest (ws.map fun v => unstored d v + shift d) (some z)) (filled : ws ≠ [])
    (number : m'.number d = larger (m.number d) (some z)) (counted : m'.counted = true) :
    m'.Has d (vs ++ ws) where
  largest := by
    rw [List.map_append, number]
    exact has.largest.merge ranked_larger largest
  counted := by
    apply iff_of_true counted
    simp [filled]

/-- A group's values are read. -/
theorem Maxima.Has.group {vs : List Value} {m : Maxima} {b : Batch} {n : Nat} {stats : Statistics}
    {nulls : Option Nat} (has : m.Has d vs)
    (exact : ExactStats (parquetField name d id).physical b stats nulls) (even : Levels.Even b)
    (rows : n = b.2.length) (sound : ∀ v ∈ b.1, Sound d v) :
    ∃ m', m.group cursor path ⟨some (stats, nulls), n⟩ = .ok m' ∧ m'.Has d (vs ++ b.1) := by
  have skips := nulls_iff exact even rows
  by_cases none : b.1 = []
  · refine ⟨m, group_skips (skips.mpr none), ?_⟩
    rw [none, List.append_nil]
    exact has
  · have reads : nulls ≠ some n := fun all => none (skips.mp all)
    have filled : (b.1.map fun v => unstored d v + shift d) ≠ [] := by simp [none]
    cases d with
    | int w unsigned =>
        obtain ⟨o, rfl, largest⟩ := exact.int64 rfl
        rw [asInt_map (d := .int w unsigned) sound] at largest
        obtain ⟨z, rfl⟩ := largest.isSome filled
        exact ⟨_, group_int64 reads, has.grow largest none rfl rfl⟩
    | date =>
        obtain ⟨o, rfl, largest⟩ := exact.int32 rfl
        rw [asInt_map (d := .date) sound] at largest
        obtain ⟨z, rfl⟩ := largest.isSome filled
        exact ⟨_, group_int32 reads, has.grow largest none rfl rfl⟩
    | dateTime utc =>
        obtain ⟨o, rfl, largest⟩ := exact.int64 rfl
        rw [asInt_map (d := .dateTime utc) sound] at largest
        obtain ⟨z, rfl⟩ := largest.isSome filled
        exact ⟨_, group_int64 reads, has.grow largest none rfl rfl⟩
    | decimal p s =>
        obtain ⟨o, rfl, member, largest⟩ := exact.fixed 16 rfl
        rw [asBytes_map (p := p) (s := s) sound] at largest
        obtain ⟨z, is⟩ := largest.isSome filled
        obtain ⟨x, rfl, rfl⟩ := Option.map_eq_some_iff.mp is
        obtain ⟨v, v_mem, bytes⟩ := List.mem_filterMap.mp (member x rfl)
        obtain ⟨y, rfl, length⟩ := sound v v_mem
        obtain rfl := Option.some.inj bytes
        exact ⟨_, group_fixed reads length, has.grow largest none rfl rfl⟩
    | _ =>
        obtain ⟨v, v_mem⟩ := List.exists_mem_of_ne_nil _ none
        exact (sound v v_mem).elim

/-! ## A file -/

/-- A column's values in a file. -/
def fileValues (i : Nat) (file : List (List Batch)) : List Value :=
  file.flatMap fun g => (g.getD i ([], [])).1

/-- What the largest of some values is shown as. -/
def ShowsLargest (sink : Sink) (d : Delivered) (vs : List Value) (r : Option (Text × Bool)) :
    Prop :=
  Whole d ∧ ∃ z ∈ vs.map (unstored d), (∀ w ∈ vs.map (unstored d), w ≤ z) ∧
    r = some (cursorText d z, sink.numeric d)

theorem aligned_rows {n i : Nat} {g : List Batch} (aligned : Aligned n g) (within : i < n) :
    Levels.Even (g.getD i ([], [])) ∧ rowsIn g = (g.getD i ([], [])).2.length := by
  rw [← aligned.count] at within
  have member : g.getD i ([], []) ∈ g := by
    rw [List.getD_eq_getElem _ _ within]
    exact List.getElem_mem within
  exact ⟨aligned.even _ member, (aligned.rows _ member).symm⟩

theorem Maxima.Has.groups {n i : Nat} {vs : List Value} {m : Maxima} {file : List (List Batch)}
    (has : m.Has d vs) (within : i < n) (aligned : ∀ g ∈ file, Aligned n g)
    (sound : ∀ v ∈ fileValues i file, Sound d v) :
    ∃ m', m.groups cursor path
        (writer.footer (parquetField name d id) i path file).groups = .ok m' ∧
      m'.Has d (vs ++ fileValues i file) := by
  induction file generalizing vs m with
  | nil =>
      refine ⟨m, rfl, ?_⟩
      rw [fileValues, List.flatMap_nil, List.append_nil]
      exact has
  | cons g file ih =>
      obtain ⟨even, rows⟩ := aligned_rows (aligned g List.mem_cons_self) within
      have exact := writer.exact (parquetField name d id).physical (g.getD i ([], []))
      rw [fileValues, List.flatMap_cons] at sound
      obtain ⟨m', read, next⟩ : ∃ m', m.group cursor path _ = .ok m' ∧ _ :=
        has.group exact even rows fun v v_mem => sound v (List.mem_append_left _ v_mem)
      obtain ⟨last, reads, all⟩ := ih next (fun h h_mem => aligned h (List.mem_cons_of_mem _ h_mem))
        fun v v_mem => sound v (List.mem_append_right _ v_mem)
      refine ⟨last, ?_, ?_⟩
      · show (m.group cursor path _).bind _ = _
        rw [read]
        exact reads
      · rw [fileValues, List.flatMap_cons, ← List.append_assoc]
        exact all

/-- The number kept is the largest value's. -/
theorem Maxima.Has.greatest {vs : List Value} {m : Maxima} (has : m.Has d vs) (filled : vs ≠ []) :
    ∃ z ∈ vs.map (unstored d), (∀ w ∈ vs.map (unstored d), w ≤ z) ∧
      m.number d = some (z + shift d) := by
  obtain ⟨a, number⟩ := has.largest.isSome (by simp [filled])
  obtain ⟨b, b_mem, rfl, above⟩ := has.largest.something a number
  obtain ⟨v, v_mem, rfl⟩ := List.mem_map.mp b_mem
  refine ⟨unstored d v, List.mem_map_of_mem v_mem, ?_, number⟩
  intro w w_mem
  obtain ⟨u, u_mem, rfl⟩ := List.mem_map.mp w_mem
  have le := of_decide_eq_true (above _ (List.mem_map_of_mem u_mem))
  exact le_of_add_le_add_right le

theorem not_decimal {d : Delivered} (other : ∀ p s, d ≠ .decimal p s) : Whole d := by
  intro p s is
  exact absurd is (other p s)

/-- What is rendered is the largest value's text. -/
theorem Maxima.Has.render {vs : List Value} {m : Maxima} {chrono : Chrono}
    {r : Option (Text × Bool)} (sink : Sink) (has : m.Has d vs) (filled : vs ≠ [])
    (sound : ∀ v ∈ vs, Sound d v)
    (rendered : m.render cursor path chrono (parquetField name d id).physical
      (parquetField name d id).logical = .ok r) : ShowsLargest sink d vs r := by
  obtain ⟨z, z_mem, above, number⟩ := has.greatest filled
  obtain ⟨i, s, dec, counted⟩ := m
  cases d with
  | int w unsigned =>
      obtain rfl : i = some (z + 0) := number
      rw [Maxima.render.eq_def] at rendered
      refine ⟨not_decimal (by rintro p s ⟨⟩), z, z_mem, above, ?_⟩
      rw [Int.add_zero] at rendered
      rw [← Except.ok.inj rendered]
      cases sink <;> rfl
  | date =>
      obtain rfl : i = some (z + Copy.pgEpochDays) := number
      rw [Maxima.render.eq_def] at rendered
      obtain ⟨t, shown, rfl⟩ := map_eq_ok.mp rendered
      refine ⟨not_decimal (by rintro p s ⟨⟩), z, z_mem, above, ?_⟩
      rw [renderDateDays_ok shown]
      cases sink <;> rfl
  | dateTime utc =>
      obtain rfl : i = some (z + Copy.pgEpochMicros) := number
      rw [Maxima.render.eq_def] at rendered
      obtain ⟨t, shown, rfl⟩ := map_eq_ok.mp rendered
      refine ⟨not_decimal (by rintro p s ⟨⟩), z, z_mem, above, ?_⟩
      rw [renderTsMicros_ok shown]
      cases sink <;> rfl
  | decimal p s' =>
      obtain rfl : dec = some (z + 0) := number
      rw [Maxima.render.eq_def, parquetField] at rendered
      dsimp only at rendered
      cases scale : min s' (clampPrecision p) with
      | zero =>
          have positive := clampPrecision_pos p
          obtain rfl : s' = 0 := by omega
          rw [Nat.zero_min] at rendered
          have whole : Whole (.decimal p 0) := by
            rintro p' s ⟨⟩
            rfl
          refine ⟨whole, z, z_mem, above, ?_⟩
          rw [Int.add_zero] at rendered
          rw [← Except.ok.inj rendered]
          cases sink <;> rfl
      | succ k =>
          rw [scale] at rendered
          cases rendered
  | _ =>
      obtain ⟨v, v_mem⟩ := List.exists_mem_of_ne_nil _ filled
      exact (sound v v_mem).elim

theorem has_nothing (d : Delivered) : (⟨none, none, none, false⟩ : Maxima).Has d [] where
  largest := by cases d <;> exact best_nil
  counted := by decide

/-- A file's maximum is nothing without a value, and the largest value's text with one. -/
theorem footer_cases {n i : Nat} {file : List (List Batch)} {chrono : Chrono}
    {r : Option (Text × Bool)} (sink : Sink) (within : i < n) (aligned : ∀ g ∈ file, Aligned n g)
    (sound : ∀ v ∈ fileValues i file, Sound d v)
    (read : footerCursorMax chrono cursor
      (writer.footer (parquetField name d id) i path file) = .ok r) :
    (r = none ∧ fileValues i file = []) ∨ ShowsLargest sink d (fileValues i file) r := by
  rw [footerCursorMax] at read
  split at read
  case isTrue no_rows =>
      refine .inl ⟨(Except.ok.inj read).symm, ?_⟩
      apply List.flatMap_eq_nil_iff.mpr
      intro g g_mem
      have none : rowsIn g = 0 :=
        List.sum_eq_zero_iff_forall_eq_nat.mp no_rows _ (List.mem_map_of_mem g_mem)
      rw [((aligned g g_mem).noRows none).getD]
  case isFalse =>
      change (Maxima.groups cursor path _ _).bind _ = _ at read
      obtain ⟨m, groups, has⟩ : ∃ m, Maxima.groups cursor path _
          (writer.footer (parquetField name d id) i path file).groups = .ok m ∧ _ :=
        (has_nothing d).groups within aligned sound
      rw [List.nil_append] at has
      rw [groups, Stop.ok_bind] at read
      split at read
      case isTrue uncounted =>
          refine .inl ⟨(Except.ok.inj read).symm, ?_⟩
          by_contra filled
          rw [has.counted.mpr filled] at uncounted
          cases uncounted
      case isFalse counted =>
          rw [Bool.not_eq_false] at counted
          exact .inr (has.render sink (has.counted.mp counted) sound read)

/-! ## The files -/

/-- Numbers of which one is the largest of every file with values. -/
structure Covers (d : Delivered) (files : List (List Value)) (zs : List Int) : Prop where
  drawn : ∀ z ∈ zs, ∃ vs ∈ files, z ∈ vs.map (unstored d)
  bounds : ∀ vs ∈ files, ∀ w ∈ vs.map (unstored d), ∃ z ∈ zs, w ≤ z
  whole : Whole d ∨ ∀ vs ∈ files, vs = []

variable {sink : Sink} {files : List (List Value)} {vs : List Value} {zs : List Int}

theorem covers_nil (d : Delivered) : Covers d [] [] where
  drawn z no := by cases no
  bounds vs no := by cases no
  whole := .inr fun vs no => by cases no

theorem Covers.empty (covers : Covers d files zs) : Covers d ([] :: files) zs where
  drawn z z_mem := by
    obtain ⟨vs, vs_mem, is⟩ := covers.drawn z z_mem
    exact ⟨vs, List.mem_cons_of_mem _ vs_mem, is⟩
  bounds vs vs_mem w w_mem := by
    rcases List.mem_cons.mp vs_mem with rfl | vs_mem
    · cases w_mem
    · exact covers.bounds vs vs_mem w w_mem
  whole := by
    rcases covers.whole with whole | none
    · exact .inl whole
    · right
      intro vs vs_mem
      rcases List.mem_cons.mp vs_mem with rfl | vs_mem
      · rfl
      · exact none vs vs_mem

theorem Covers.add (covers : Covers d files zs) {z : Int} (whole : Whole d)
    (z_mem : z ∈ vs.map (unstored d)) (above : ∀ w ∈ vs.map (unstored d), w ≤ z) :
    Covers d (vs :: files) (z :: zs) where
  drawn y y_mem := by
    rcases List.mem_cons.mp y_mem with rfl | y_mem
    · exact ⟨vs, List.mem_cons_self, z_mem⟩
    · obtain ⟨us, us_mem, is⟩ := covers.drawn y y_mem
      exact ⟨us, List.mem_cons_of_mem _ us_mem, is⟩
  bounds us us_mem w w_mem := by
    rcases List.mem_cons.mp us_mem with rfl | us_mem
    · exact ⟨z, List.mem_cons_self, above w w_mem⟩
    · obtain ⟨y, y_mem, le⟩ := covers.bounds us us_mem w w_mem
      exact ⟨y, List.mem_cons_of_mem _ y_mem, le⟩
  whole := .inl whole

/-- The files of a load, each at its path. -/
abbrev Paths := List (String × List (List Batch))

def footers (writer : Writer) (field : ParquetField) (i : Nat) (at_ : Paths) : List Footer :=
  at_.map fun f => writer.footer field i f.1 f.2

/-- What the merge of the files' texts is the best of. -/
theorem dataMax_covers {n i : Nat} {at_ : Paths} {chrono : Chrono} {acc : Option Text}
    {nullOnly : Bool}
    {before : List Int} {r : Option Text × Bool} (within : i < n)
    (aligned : ∀ f ∈ at_, ∀ g ∈ f.2, Aligned n g)
    (sound : ∀ f ∈ at_, ∀ v ∈ fileValues i f.2, Sound d v)
    (best : Best (fun x y => xWins x y (sink.numeric d)) (cursorText d) before acc)
    (read : dataMax chrono cursor acc nullOnly
      (footers writer (parquetField name d id) i at_) = .ok r) :
    ∃ zs, Covers d (at_.map fun f => fileValues i f.2) zs ∧
      Best (fun x y => xWins x y (sink.numeric d)) (cursorText d) (before ++ zs) r.1 := by
  induction at_ generalizing acc nullOnly before with
  | nil =>
      refine ⟨[], covers_nil d, ?_⟩
      rw [List.append_nil, ← Except.ok.inj read]
      exact best
  | cons f rest ih =>
      have aligned' : ∀ f ∈ rest, ∀ g ∈ f.2, Aligned n g :=
        fun h h_mem => aligned h (List.mem_cons_of_mem _ h_mem)
      have sound' : ∀ f ∈ rest, ∀ v ∈ fileValues i f.2, Sound d v :=
        fun h h_mem => sound h (List.mem_cons_of_mem _ h_mem)
      obtain ⟨one, first, later⟩ := bind_eq_ok.mp read
      rcases footer_cases sink within (aligned f List.mem_cons_self)
        (sound f List.mem_cons_self) first with ⟨rfl, none⟩ | ⟨whole, z, z_mem, above, rfl⟩
      · obtain ⟨zs, covers, merged⟩ := ih aligned' sound' best later
        refine ⟨zs, ?_, merged⟩
        rw [List.map_cons, none]
        exact covers.empty
      · have grown := best.merge (ranked_cursorText sink d) (best_one (ranked_cursorText sink d) z)
        rw [← wmMax_eq] at grown
        obtain ⟨zs, covers, merged⟩ := ih aligned' sound' grown later
        refine ⟨z :: zs, covers.add whole z_mem above, ?_⟩
        rw [List.append_assoc] at merged
        exact merged

/-- A destination's maximum is the best of its files'. -/
theorem destDataMax_covers {n i : Nat} {at_ : Paths} {chrono : Chrono} {o : Option Text}
    (sink : Sink) (within : i < n) (aligned : ∀ f ∈ at_, ∀ g ∈ f.2, Aligned n g)
    (sound : ∀ f ∈ at_, ∀ v ∈ fileValues i f.2, Sound d v)
    (read : destDataMax chrono cursor (footers writer (parquetField name d id) i at_) = .ok o) :
    ∃ zs, Covers d (at_.map fun f => fileValues i f.2) zs ∧
      Best (fun x y => xWins x y (sink.numeric d)) (cursorText d) zs o := by
  obtain ⟨r, merged, is⟩ := bind_eq_ok.mp read
  have start : Best (fun x y => xWins x y (sink.numeric d)) (cursorText d) [] none := best_nil
  obtain ⟨zs, covers, best⟩ := dataMax_covers within aligned sound start merged
  have same : o = r.1 := by
    split at is
    case isTrue no_files =>
        rw [no_files] at merged
        rw [← Except.ok.inj merged, ← Except.ok.inj is]
    case isFalse =>
        split at is
        · cases is
        · exact (Except.ok.inj is).symm
  rw [same]
  exact ⟨zs, covers, best⟩

end Apitap.Parquet
