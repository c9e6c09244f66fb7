import Apitap.Foundation.Tiling
import Mathlib.Algebra.Order.Ring.Int

/-!
# Range splits

A parallel read cuts a table into ranges of its cursor, or of its pages, one statement
each. The split's arithmetic is in 128 bits, so that no pair of 64-bit ends overflows
it; the outer ranges stay open, and rows with no cursor ride the last one.
-/

namespace Apitap

open Foundation (Tiles edged)

namespace Source

/-- A 128-bit result; none when it does not fit. -/
def i128 (x : Int) : Option Int := if -2 ^ 127 ≤ x ∧ x < 2 ^ 127 then some x else none

/-- The spans from the `k`-th on. -/
def spansFrom (lo hi step : Int) : Nat → Int → Option (List (Int64 × Int64))
  | 0, _ => some []
  | turns + 1, k => do
      let rlo ← i128 (lo + (← i128 (k * step)))
      if hi < rlo then some []
      else
        let past ← i128 (lo + (← i128 ((← i128 (k + 1)) * step)))
        let rhi := min (← i128 (past - 1)) hi
        let rest ← spansFrom lo hi step turns (k + 1)
        some ((rlo.toInt64, rhi.toInt64) :: rest)

/-- Split `[lo, hi]` into at most `n` adjacent spans. -/
def spans (lo hi : Int64) (n : UInt64) : Option (List (Int64 × Int64)) := do
  let count := max n.toNat 1
  let width ← i128 ((← i128 (hi.toInt - lo.toInt)) + 1)
  let step := (← i128 ((← i128 (width + count)) - 1)).tdiv count
  spansFrom lo.toInt hi.toInt step count 0

example : spans 1 10 4 = some [(1, 3), (4, 6), (7, 9), (10, 10)] := by decide

section spans

variable {lo hi step k : Int}

theorem i128_eq {x : Int} (low : -2 ^ 127 ≤ x) (high : x < 2 ^ 127) : i128 x = some x :=
  if_pos ⟨low, high⟩

/-- Past the end there are no more spans. -/
private theorem spansFrom_past (turns : Nat) (past : hi < lo + k * step)
    (low : -2 ^ 126 ≤ lo) (high : lo < 2 ^ 126) (start : 0 ≤ k * step)
    (fits : k * step < 2 ^ 126) :
    spansFrom lo hi step turns k = some [] := by
  cases turns with
  | zero => rfl
  | succ turns =>
      have inner : i128 (k * step) = some (k * step) := i128_eq (by omega) (by omega)
      have outer : i128 (lo + k * step) = some (lo + k * step) := i128_eq (by omega) (by omega)
      rw [spansFrom]
      simp only [inner, outer, bind, Option.bind]
      rw [if_pos past]

/-- The spans from the `k`-th on tile what is left of the range, without overflow. -/
private theorem spansFrom_tiles {turns : Nat} {a : Int} (at_k : a = lo + k * step)
    (left : a ≤ hi) (enough : hi - a + 1 ≤ turns * step) (low : -2 ^ 63 ≤ lo) (high : hi < 2 ^ 63)
    (positive : 1 ≤ step) (small : step ≤ 2 ^ 64) (start : 0 ≤ k) :
    ∃ rs : List (Int × Int), Tiles hi a rs ∧ rs.length ≤ turns ∧
      spansFrom lo hi step turns k = some (rs.map fun r => (r.1.toInt64, r.2.toInt64)) := by
  induction turns generalizing k a with
  | zero => omega
  | succ turns ih =>
      have offset : 0 ≤ k * step := Int.mul_nonneg start (by omega)
      have index : k ≤ k * step := le_mul_of_one_le_right start positive
      have next : (k + 1) * step = k * step + step := by rw [Int.add_mul, Int.one_mul]
      have h₁ : i128 (k * step) = some (k * step) := i128_eq (by omega) (by omega)
      have h₂ : i128 (lo + k * step) = some (lo + k * step) := i128_eq (by omega) (by omega)
      have h₃ : i128 (k + 1) = some (k + 1) := i128_eq (by omega) (by omega)
      have h₄ : i128 ((k + 1) * step) = some ((k + 1) * step) := i128_eq (by omega) (by omega)
      have h₅ : i128 (lo + (k + 1) * step) = some (lo + (k + 1) * step) :=
        i128_eq (by omega) (by omega)
      have h₆ : i128 (lo + (k + 1) * step - 1) = some (lo + (k + 1) * step - 1) :=
        i128_eq (by omega) (by omega)
      have inside : ¬hi < lo + k * step := by omega
      rw [spansFrom]
      simp only [h₁, h₂, h₃, h₄, h₅, h₆, bind, Option.bind]
      rw [if_neg inside]
      by_cases final : hi ≤ a + step - 1
      · have rest : spansFrom lo hi step turns (k + 1) = some [] :=
          spansFrom_past turns (by omega) (by omega) (by omega) (by omega) (by omega)
        have upper : min (lo + (k + 1) * step - 1) hi = hi := min_eq_right (by omega)
        refine ⟨[(a, hi)], .last left, by simp, ?_⟩
        rw [rest, upper, at_k]
        rfl
      · obtain ⟨rs, tiles, count, ran⟩ := ih (k := k + 1) (a := a + step) (by omega) (by omega)
          (by push_cast [Int.add_mul] at enough; omega) (by omega)
        have upper : min (lo + (k + 1) * step - 1) hi = a + step - 1 := by
          rw [min_eq_left (by omega)]
          omega
        refine ⟨(a, a + step - 1) :: rs, .cons (by omega) (by omega) ?_, ?_, ?_⟩
        · rw [Int.sub_add_cancel]
          exact tiles
        · rw [List.length_cons]
          omega
        · rw [ran, upper, List.map_cons, at_k]

/-- The spans tile the range, without overflow. -/
theorem spans_tiles {lo hi : Int64} (ordered : lo ≤ hi) (n : UInt64) :
    ∃ rs : List (Int × Int), Tiles hi.toInt lo.toInt rs ∧ rs.length ≤ max n.toNat 1 ∧
      spans lo hi n = some (rs.map fun r => (r.1.toInt64, r.2.toInt64)) := by
  have le : lo.toInt ≤ hi.toInt := Int64.le_iff_toInt_le.mp ordered
  have low : -2 ^ 63 ≤ lo.toInt := lo.le_toInt
  have high : hi.toInt < 2 ^ 63 := hi.toInt_lt
  have most : n.toNat < 2 ^ 64 := n.toNat_lt
  have least : 1 ≤ max n.toNat 1 := Nat.le_max_right ..
  have count_lt : max n.toNat 1 < 2 ^ 64 := by omega
  generalize counted : max n.toNat 1 = count at least count_lt
  have h₁ : i128 (hi.toInt - lo.toInt) = some (hi.toInt - lo.toInt) :=
    i128_eq (by omega) (by omega)
  have h₂ : i128 (hi.toInt - lo.toInt + 1) = some (hi.toInt - lo.toInt + 1) :=
    i128_eq (by omega) (by omega)
  have h₃ : i128 (hi.toInt - lo.toInt + 1 + count) = some (hi.toInt - lo.toInt + 1 + count) :=
    i128_eq (by omega) (by omega)
  have h₄ : i128 (hi.toInt - lo.toInt + 1 + count - 1) =
      some (hi.toInt - lo.toInt + 1 + count - 1) := i128_eq (by omega) (by omega)
  -- the step is the width over the count, rounded up
  have up : (hi.toInt - lo.toInt + 1 + count - 1).tdiv count =
      (hi.toInt - lo.toInt + 1 + count - 1) / count := Int.tdiv_eq_ediv_of_nonneg (by omega)
  generalize stepped : (hi.toInt - lo.toInt + 1 + count - 1) / count = step at up
  have rounded : hi.toInt - lo.toInt + 1 ≤ count * step := by
    have division := Int.emod_add_mul_ediv (hi.toInt - lo.toInt + 1 + count - 1) count
    have below := Int.emod_lt_of_pos (hi.toInt - lo.toInt + 1 + count - 1)
      (show (0 : Int) < count by omega)
    rw [stepped] at division
    omega
  have positive : 1 ≤ step := by
    rw [← stepped]
    exact Int.le_ediv_of_mul_le (by omega) (by omega)
  have small : step ≤ 2 ^ 64 := by
    rw [← stepped]
    refine Int.ediv_le_of_le_mul (by omega) ?_
    have wide : (2 : Int) ^ 64 + (count - 1) ≤ 2 ^ 64 * count := by omega
    omega
  obtain ⟨rs, tiles, few, ran⟩ : ∃ rs : List (Int × Int), Tiles hi.toInt lo.toInt rs ∧
      rs.length ≤ count ∧ spansFrom lo.toInt hi.toInt step count 0 =
        some (rs.map fun r => (r.1.toInt64, r.2.toInt64)) :=
    spansFrom_tiles (by omega) le rounded low high positive small le_rfl
  refine ⟨rs, tiles, few, ?_⟩
  rw [spans, counted]
  simp only [h₁, h₂, h₃, h₄, bind, Option.bind, up]
  exact ran

end spans

/-! ## The statements -/

/-- A condition on the cursor column. -/
inductive Where where
  | always
  | le (v : Int64)
  | ge (v : Int64)
  | isNull
  | and (p q : Where)
  | or (p q : Where)
deriving DecidableEq

/-- What the condition says of a row's cursor, in three-valued logic. -/
def Where.eval (cursor : Option Int64) : Where → Option Bool
  | .always => some true
  | .le v => cursor.map fun x => decide (x ≤ v)
  | .ge v => cursor.map fun x => decide (v ≤ x)
  | .isNull => some cursor.isNone
  | .and p q =>
      match p.eval cursor, q.eval cursor with
      | some false, _ | _, some false => some false
      | some true, some true => some true
      | _, _ => none
  | .or p q =>
      match p.eval cursor, q.eval cursor with
      | some true, _ | _, some true => some true
      | some false, some false => some false
      | _, _ => none

/-- A statement reads the rows its condition is true of. -/
def Where.reads (p : Where) (cursor : Option Int64) : Bool := p.eval cursor = some true

/-- The condition of one span; the outer ones are open, and the last one takes the NULLs. -/
def spanRange (first last : Bool) (lo hi : Int64) (nullable : Bool) : Where :=
  match first, last with
  | true, true => .always
  | true, false => .le hi
  | false, true => if nullable then .or (.ge lo) .isNull else .ge lo
  | false, false => .and (.ge lo) (.le hi)

/-- The conditions of a split's statements. -/
def spanRanges (ranges : List (Int64 × Int64)) (nullable : Bool) : List Where :=
  ranges.zipIdx.map fun r =>
    spanRange (decide (r.2 = 0)) (decide (r.2 = ranges.length - 1)) r.1.1 r.1.2 nullable

/-- A range of pages, from one on and up to one, if it ends. -/
structure Pages where
  low : Int64
  high : Option Int64
deriving DecidableEq

/-- The rows of a page are within the range or outside it, whatever their line. -/
def Pages.reads (p : Pages) (page : Nat) : Bool :=
  decide (p.low.toInt ≤ page) && p.high.all fun h => decide ((page : Int) < h.toInt)

/-- The page ranges of a split; the last one is open. -/
def pageRanges (ranges : List (Int64 × Int64)) : List Pages :=
  ranges.zipIdx.map fun r =>
    ⟨r.1.1, if r.2 = ranges.length - 1 then none else some (r.1.2 + 1)⟩

/-! ## The plan's cursor -/

structure ColumnPlan where
  name : String
  nullable : Bool
deriving DecidableEq, Repr

/-- A probed table's columns, its range-split cursor, and the cursor's column when it is
kept aside. -/
structure TablePlan where
  cols : List ColumnPlan
  cursor : Option String
  cursorCol : Option ColumnPlan
deriving DecidableEq, Repr

namespace TablePlan

/-- The cursor's column: among the columns, or kept aside. -/
def cursorPlan (plan : TablePlan) : Option ColumnPlan :=
  plan.cursor.bind fun c =>
    (plan.cols.find? fun pc => pc.name = c).or (plan.cursorCol.filter fun pc => pc.name = c)

/-- Whether the source may hold a NULL in the cursor. -/
def sourceCursorNullable (plan : TablePlan) : Bool :=
  ((plan.cursorCol.filter fun pc => some pc.name = plan.cursor).or plan.cursorPlan).all
    ColumnPlan.nullable

/-- The pipeline keeps the source's own column before a sink sees the plan. -/
def keepCursor (plan : TablePlan) : TablePlan :=
  if plan.cursorCol.isNone then { plan with cursorCol := plan.cursorPlan } else plan

/-- Whatever the sink makes of the columns, the split asks the source's own flag. -/
theorem sourceCursorNullable_keepCursor {plan : TablePlan} {source : ColumnPlan}
    (own : plan.cursorCol = none) (probed : plan.cursorPlan = some source)
    (cols : List ColumnPlan) :
    { plan.keepCursor with cols := cols }.sourceCursorNullable = source.nullable := by
  have named : some source.name = plan.cursor := by
    obtain ⟨c, cursor, found⟩ := Option.bind_eq_some_iff.mp probed
    rw [own, Option.filter_none, Option.or_none] at found
    have name := List.find?_some found
    rw [cursor, of_decide_eq_true name]
  have kept : plan.keepCursor = { plan with cursorCol := some source } := by
    rw [keepCursor, own, probed]
    rfl
  rw [kept, sourceCursorNullable]
  simp [Option.filter, named]

end TablePlan

/-! ## Every row is read once -/

theorem spanRange_reads (first last nullable : Bool) (lo hi x : Int64) :
    (spanRange first last lo hi nullable).reads (some x) =
      ((first || decide (lo ≤ x)) && (last || decide (x ≤ hi))) := by
  by_cases low : lo ≤ x <;> by_cases high : x ≤ hi <;> cases first <;> cases last <;>
    cases nullable <;> simp [spanRange, Where.reads, Where.eval, low, high]

theorem spanRange_reads_null (first last : Bool) (lo hi : Int64) :
    (spanRange first last lo hi true).reads none = last := by
  cases first <;> cases last <;> rfl

theorem spanRanges_eq (ranges : List (Int64 × Int64)) (nullable : Bool) :
    spanRanges ranges nullable = (edged true ranges).map fun r =>
      spanRange r.2.1 r.2.2 r.1.1 r.1.2 nullable := by
  rw [Foundation.edged_eq_zipIdx, List.map_map]
  rfl

theorem pageRanges_eq (ranges : List (Int64 × Int64)) :
    pageRanges ranges = (edged true ranges).map fun r =>
      ⟨r.1.1, if r.2.2 then none else some (r.1.2 + 1)⟩ := by
  rw [Foundation.edged_eq_zipIdx, List.map_map]
  simp [pageRanges, Function.comp_def]

section tiled

variable {lo hi : Int64} {rs : List (Int × Int)}

/-- The ranges of a tiling, in 64 bits. -/
abbrev toRanges (rs : List (Int × Int)) : List (Int64 × Int64) :=
  rs.map fun r => (r.1.toInt64, r.2.toInt64)

/-- The ends of the tiles fit 64 bits. -/
theorem toInt_tile (tiles : Tiles hi.toInt lo.toInt rs) {r : Int × Int} (mem : r ∈ rs) :
    r.1.toInt64.toInt = r.1 ∧ r.2.toInt64.toInt = r.2 := by
  obtain ⟨after, inner, before⟩ := tiles.bounds mem
  have low : -2 ^ 63 ≤ lo.toInt := lo.le_toInt
  have high : hi.toInt < 2 ^ 63 := hi.toInt_lt
  exact ⟨Int64.toInt_ofInt_of_le (by omega) (by omega),
    Int64.toInt_ofInt_of_le (by omega) (by omega)⟩

/-- The ranges' ends are the tiles'. -/
theorem toRanges_ends (tiles : Tiles hi.toInt lo.toInt rs) :
    (toRanges rs).head?.map Prod.fst = some lo ∧ (toRanges rs).getLast?.map Prod.snd = some hi := by
  have first := congrArg (Option.map Int.toInt64) tiles.head
  have last := congrArg (Option.map Int.toInt64) tiles.getLast
  rw [Option.map_map, Option.map_some] at first last
  constructor
  · rw [List.head?_map, Option.map_map]
    exact first.trans (congrArg some (Int64.ofInt_toInt lo))
  · rw [List.getLast?_map, Option.map_map]
    exact last.trans (congrArg some (Int64.ofInt_toInt hi))

theorem mem_toRanges (tiles : Tiles hi.toInt lo.toInt rs) {r : Int64 × Int64}
    (mem : r ∈ toRanges rs) : (r.1.toInt, r.2.toInt) ∈ rs := by
  obtain ⟨tile, member, rfl⟩ := List.mem_map.mp mem
  obtain ⟨first, second⟩ := toInt_tile tiles member
  simp only [first, second]
  exact member

theorem toRanges_adjacent (tiles : Tiles hi.toInt lo.toInt rs) :
    (toRanges rs).IsChain fun r r' => r.2.toInt + 1 = r'.1.toInt := by
  rw [List.isChain_map]
  refine tiles.adjacent.imp_of_mem_imp fun r r' mem mem' next => ?_
  rw [(toInt_tile tiles mem).2, (toInt_tile tiles mem').1]
  exact next

theorem toRanges_union (tiles : Tiles hi.toInt lo.toInt rs) (x : Int64) :
    (∃ r ∈ toRanges rs, r.1 ≤ x ∧ x ≤ r.2) ↔ lo ≤ x ∧ x ≤ hi := by
  simp only [Int64.le_iff_toInt_le]
  rw [← tiles.mem_iff x.toInt]
  constructor
  · rintro ⟨r, mem, inside⟩
    exact ⟨(r.1.toInt, r.2.toInt), mem_toRanges tiles mem, inside⟩
  · rintro ⟨r, mem, inside⟩
    obtain ⟨first, second⟩ := toInt_tile tiles mem
    exact ⟨_, List.mem_map_of_mem mem, by rwa [first, second]⟩

/-- One statement reads a row that has a cursor. -/
theorem countP_reads_some (tiles : Tiles hi.toInt lo.toInt rs) (nullable : Bool) (x : Int64) :
    (spanRanges (toRanges rs) nullable).countP (·.reads (some x)) = 1 := by
  have once := tiles.countP_open true true x.toInt
  rw [if_pos (.inl rfl)] at once
  rw [spanRanges_eq, Foundation.edged_map, List.countP_map, List.countP_map, ← once]
  refine List.countP_congr fun r mem => ?_
  obtain ⟨first, second⟩ := toInt_tile tiles (Foundation.mem_of_mem_edged mem)
  simp only [Function.comp_apply, spanRange_reads, Int64.le_iff_toInt_le, first, second,
    Bool.true_and]

/-- One statement reads a row that has none. -/
theorem countP_reads_none (tiles : Tiles hi.toInt lo.toInt rs) :
    (spanRanges (toRanges rs) true).countP (·.reads none) = 1 := by
  rw [spanRanges_eq, Foundation.edged_map, List.countP_map, List.countP_map,
    ← Foundation.countP_last tiles.ne_nil true]
  refine List.countP_congr fun r _ => ?_
  simp only [Function.comp_apply, spanRange_reads_null]

/-- One page range has a page's rows, however many pages there are by then. -/
theorem countP_pages (tiles : Tiles hi.toInt lo.toInt rs) (fits : hi < Int64.maxValue)
    {page : Nat} (from_lo : lo.toInt ≤ page) :
    (pageRanges (toRanges rs)).countP (·.reads page) = 1 := by
  have once := tiles.countP_open false true (page : Int)
  rw [if_pos (.inr from_lo)] at once
  rw [pageRanges_eq, Foundation.edged_map, List.countP_map, List.countP_map, ← once]
  refine List.countP_congr fun r mem => ?_
  have member := Foundation.mem_of_mem_edged mem
  obtain ⟨first, second⟩ := toInt_tile tiles member
  -- the page after a range is still a 64-bit number
  have past : (r.1.2.toInt64 + 1).toInt = r.1.2 + 1 := by
    obtain ⟨after, inner, before⟩ := tiles.bounds member
    have below : hi.toInt < 2 ^ 63 - 1 := Int64.lt_iff_toInt_lt.mp fits
    have low : -2 ^ 63 ≤ lo.toInt := lo.le_toInt
    have one : (1 : Int64).toInt = 1 := rfl
    rw [Int64.toInt_add, second, one]
    exact Int.bmod_eq_of_le (by omega) (by omega)
  cases last : r.2.2 with
  | true => simp [Pages.reads, last, first]
  | false =>
      simp only [Pages.reads, Function.comp_apply, first, last, Bool.false_eq_true, if_false,
        Option.all_some, past, Int.lt_add_one_iff, Bool.and_eq_true, decide_eq_true_eq,
        Bool.false_and, Bool.false_or]

end tiled

/-- A row a source may hold: its cursor is NULL only where the column may be. -/
def ColumnPlan.holds (source : ColumnPlan) (cursor : Option Int64) : Prop :=
  cursor = none → source.nullable = true

/-- A cursor split is at most `n` ranges, not empty and one after another, whose union is
the probed range, and one of its statements reads each row, also one past the range or
with no cursor at all. So it is with the pages of a table, also those added later. -/
theorem spans_partition {lo hi : Int64} (ordered : lo ≤ hi) (n : UInt64) :
    (∃ ranges, spans lo hi n = some ranges ∧ ranges.length ≤ max n.toNat 1 ∧
      ranges.head?.map Prod.fst = some lo ∧ ranges.getLast?.map Prod.snd = some hi ∧
      (∀ r ∈ ranges, r.1 ≤ r.2) ∧
      ranges.IsChain (fun r r' => r.2.toInt + 1 = r'.1.toInt) ∧
      (∀ x, (∃ r ∈ ranges, r.1 ≤ x ∧ x ≤ r.2) ↔ lo ≤ x ∧ x ≤ hi) ∧
      ∀ (plan : TablePlan) (source : ColumnPlan) (cols : List ColumnPlan),
        plan.cursorCol = none → plan.cursorPlan = some source →
        ∀ cursor, source.holds cursor →
          (spanRanges ranges
            { plan.keepCursor with cols := cols }.sourceCursorNullable).countP
              (·.reads cursor) = 1) ∧
    ∀ npages : Int64, 0 < npages →
      ∃ ranges, spans 0 (npages - 1) n = some ranges ∧
        ∀ page, (pageRanges ranges).countP (·.reads page) = 1 := by
  refine ⟨?_, fun npages some_pages => ?_⟩
  · obtain ⟨rs, tiles, few, cut⟩ := spans_tiles ordered n
    obtain ⟨first, last⟩ := toRanges_ends tiles
    refine ⟨toRanges rs, cut, by rwa [List.length_map], first, last, fun r mem => ?_,
      toRanges_adjacent tiles, toRanges_union tiles, ?_⟩
    · exact Int64.le_iff_toInt_le.mpr (tiles.bounds (mem_toRanges tiles mem)).2.1
    · intro plan source cols own probed cursor held
      rw [TablePlan.sourceCursorNullable_keepCursor own probed]
      cases cursor with
      | some x => exact countP_reads_some tiles source.nullable x
      | none =>
          rw [held rfl]
          exact countP_reads_none tiles
  · have positive : 0 < npages.toInt := Int64.lt_iff_toInt_lt.mp some_pages
    have high : npages.toInt < 2 ^ 63 := npages.toInt_lt
    have lastPage : (npages - 1).toInt = npages.toInt - 1 := by
      have one : (1 : Int64).toInt = 1 := rfl
      rw [Int64.toInt_sub, one]
      exact Int.bmod_eq_of_le (by omega) (by omega)
    have zero : (0 : Int64).toInt = 0 := rfl
    have ordered : 0 ≤ npages - 1 := by
      rw [Int64.le_iff_toInt_le, lastPage, zero]
      omega
    have fits : npages - 1 < Int64.maxValue := by
      rw [Int64.lt_iff_toInt_lt, lastPage]
      have top : Int64.maxValue.toInt = 2 ^ 63 - 1 := rfl
      omega
    obtain ⟨rs, tiles, -, cut⟩ := spans_tiles ordered n
    exact ⟨toRanges rs, cut, fun page => countP_pages tiles fits (Int.natCast_nonneg page)⟩

/-- Four statements over the widest range, and a row that has no cursor. -/
theorem spans_partition_widest :
    ∃ ranges, spans Int64.minValue Int64.maxValue 4 = some ranges ∧
      (spanRanges ranges true).countP (·.reads none) = 1 := by
  have ordered : Int64.minValue ≤ Int64.maxValue := by decide
  obtain ⟨ranges, cut, -, -, -, -, -, -, once⟩ := (spans_partition ordered 4).1
  let column : ColumnPlan := ⟨"c", true⟩
  exact ⟨ranges, cut, once ⟨[column], some "c", none⟩ column [⟨"c", false⟩] rfl rfl
    none fun _ => rfl⟩

end Source

end Apitap
