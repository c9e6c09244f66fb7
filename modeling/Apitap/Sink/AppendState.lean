import Apitap.Guard.Naming
import Apitap.Plan.Watermark
import Apitap.Sink.IcebergCommit
import Apitap.Source.Spans

/-!
# An incremental run's state

A table fed in append mode has one state row for each source, in a state table beside
it. `destState` reads a source's lower bound off the state row, off the data when there
is no row at all, and refuses when only siblings have one. `finalize` lands a run's rows
and writes its state row in one transaction.
-/

namespace Apitap.Append

open Plan (resolveWatermark exponent)
open Mysource (Text)
open Iceberg (Mode)
open Guard (LandKind Name)

variable {κ : Type}

/-! ## Whose a state row is -/

/-- One row of `_apitap_state`. -/
structure StateRow where
  destTable : String
  sourceId : String
  cursorCol : String
  watermark : Text
  mode : String
  lastRows : Nat
deriving DecidableEq

/-- The two spellings of a table's key: bare, then qualified. -/
def pgStateKeys (destTable : String) : String × String :=
  match destTable.toList.dropWhile (· ≠ '.') with
  | _ :: bare => (String.ofList bare, destTable)
  | [] => (destTable, "public." ++ destTable)

inductive Refusal where
  /-- The destination's columns are not the source's. -/
  | drift (dest src : List String)
  /-- Another lane's row, or another cursor's. -/
  | foreign (row : StateRow)
  | watermark (text : String)
  | notAnInteger (wm : Text)

/-- A cursor run's read of its own row. -/
def cursorWatermark (cursor : String) : Option StateRow → Except Refusal (Option Text)
  | none => .ok none
  | some row =>
      if row.mode ≠ "log_based" ∧ (row.cursorCol = "" ∨ row.cursorCol = cursor) then
        .ok (some row.watermark)
      else .error (.foreign row)

/-! ## The destination -/

/-- A row of the table: the source it came from, and its cursor. -/
abbrev Landed (κ : Type) := String × κ

structure Table (κ : Type) where
  cols : List String
  rows : List (Landed κ)

structure Db (κ : Type) where
  final : Option (Table κ)
  state : List StateRow
  /-- The locks and staging tables beside the table. -/
  objects : List Name

/-- A cursor column: how the destination writes its values, and how a source reads them. -/
structure Cursor (κ : Type) where
  col : String
  quoted : Bool
  /-- A value, as `wm_expr` renders it. -/
  text : κ → Text
  /-- A text quoted in the source's dialect. -/
  cursorLiteral : Text → Text
  /-- What the source's parser makes of a literal. -/
  value : Text → Option κ
  value_text : ∀ v, value (if quoted then cursorLiteral (text v) else text v) = some v

/-- What one run binds: its destination, its source and the columns it delivers. -/
structure Bound where
  destKey : String
  sourceId : String
  cols : List String

namespace Db

/-- The row of a source under one spelling. -/
def row (d : Db κ) (key sourceId : String) : Option StateRow :=
  d.state.find? fun r => r.destTable = key ∧ r.sourceId = sourceId

/-- The row of a source: the qualified spelling first. -/
def ownRow (d : Db κ) (destKey sourceId : String) : Option StateRow :=
  (d.row (pgStateKeys destKey).2 sourceId).or (d.row (pgStateKeys destKey).1 sourceId)

/-- `count(*)` of the table's state rows. -/
def stateRows (d : Db κ) (destKey : String) : Nat :=
  d.state.countP fun r => r.destTable = destKey

def rows (d : Db κ) : List (Landed κ) := (d.final.map Table.rows).getD []

/-- How often the table holds a source's row. -/
def held [DecidableEq κ] (d : Db κ) (s : String) (v : κ) : Nat := d.rows.count (s, v)

end Db

section sink

variable [LinearOrder κ] (c : Cursor κ) (b : Bound)

/-- Watermark of what a table holds. -/
def tableWatermark (rows : List (Landed κ)) : Option Text :=
  (rows.map Prod.snd).max?.map c.text

structure DestState where
  present : Bool
  watermark : Option Text
deriving DecidableEq

/-- `dest_state` of an append run. Each query is answered at a moment of its own: the
table's existence, its columns, the run's state row, whether the table has rows, the
number of state rows, and the data's maximum. -/
def destState (at_ : Nat → Db κ) : Except Refusal DestState :=
  match (at_ 0).final with
  | none => .ok ⟨false, none⟩
  | some _ => do
      let destCols := ((at_ 1).final.map Table.cols).getD []
      if destCols ≠ b.cols then .error (.drift destCols b.cols)
      else
        let fromState ← cursorWatermark c.col ((at_ 2).ownRow b.destKey b.sourceId)
        -- an empty table carries no watermark, whatever the state row says
        if (at_ 3).rows.isEmpty then pure ⟨true, none⟩
        else
          let siblings := fromState.isNone ∧ (at_ 4).stateRows b.destKey > 0
          let dataMax := if fromState.isNone ∧ ¬ siblings then tableWatermark c
            (at_ 5).rows else none
          match resolveWatermark fromState dataMax siblings .stateAuthoritative b.destKey
              b.sourceId with
          | .ok watermark => pure ⟨true, watermark⟩
          | .error text => .error (.watermark text)

def Mode.text : Mode → String
  | .replace => "replace"
  | .append => "append"
  | .merge => "merge"
  | .logBased => "log_based"

/-- Upsert the run's state row. -/
def writeState (state : List StateRow) (wm : Text) (mode : Mode) (rows : Nat) : List StateRow :=
  state.filter (fun r => ¬ (r.destTable = b.destKey ∧ r.sourceId = b.sourceId)) ++
    [⟨b.destKey, b.sourceId, c.col, wm, Mode.text mode, rows⟩]

/-- A first load of an incremental run. -/
def flippedBootstrap (kind : LandKind) (mode : Mode) : Bool := mode = .replace ∧ kind = .incremental

/-- The transaction that lands a run's staged rows; none when one of its statements
fails, and then nothing of it stays. -/
def finalize (d : Db κ) (kind : LandKind) (mode : Mode) (staging : Name)
    (staged : List (Landed κ)) :
    Option (Db κ) :=
  let write := fun (state : List StateRow) =>
    match tableWatermark c staged with
    | some wm => writeState c b state wm mode staged.length
    | none => state
  let objects := d.objects.filter (· ≠ staging)
  match mode with
  | .replace =>
      -- the rename fails over a table that is there, and only a true replace drops it
      if d.final.isSome ∧ flippedBootstrap kind mode then none
      else
        let keys := pgStateKeys b.destKey
        let cleared := d.state.filter fun r => ¬ (r.destTable = keys.1 ∨ r.destTable = keys.2)
        some ⟨some ⟨b.cols, staged⟩, write cleared, objects⟩
  | .append =>
      d.final.map fun t => ⟨some { t with rows := t.rows ++ staged }, write d.state, objects⟩
  | .merge | .logBased => none

end sink

/-! ## The delta -/

structure Delta where
  col : String
  op : String
  literal : Text
deriving DecidableEq

/-- What a run goes on with after its first look. -/
structure Plan where
  mode : Mode
  watermark : Option Text
  delta : Option Delta
deriving DecidableEq

/-- The mode and delta of an append run, from what it found. -/
def planOf (c : Cursor κ) (st : DestState) : Except Refusal Plan :=
  if ¬ st.present then .ok ⟨.replace, st.watermark, none⟩
  else
    match st.watermark with
    | none => .ok ⟨.append, none, none⟩
    | some wm =>
        if c.quoted then .ok ⟨.append, some wm, some ⟨c.col, ">", c.cursorLiteral wm⟩⟩
        else
          match (exponent wm).bind Source.i128 with
          | some _ => .ok ⟨.append, some wm, some ⟨c.col, ">", wm⟩⟩
          | none => .error (.notAnInteger wm)

def watermarkMoved (read now : Option Text) : Bool := read ≠ now

/-- Whether the delta asks for a row. -/
def Delta.admits [LinearOrder κ] (c : Cursor κ) (d : Delta) (v : κ) : Bool :=
  (c.value d.literal).any (· < v)

/-- A run without a delta reads every row. -/
def Plan.admits [LinearOrder κ] (c : Cursor κ) (p : Plan) (v : κ) : Bool :=
  p.delta.all (·.admits c v)

section sink

variable {c : Cursor κ} {b : Bound} {s : String} {d d' : Db κ}

/-! ## What a look finds, and what a landing changes -/

theorem cursorWatermark_some {cursor : String} {row : Option StateRow} {wm : Text}
    (read : cursorWatermark cursor row = .ok (some wm)) : ∃ r, row = some r ∧ r.watermark = wm := by
  cases row with
  | none => nomatch read
  | some r =>
      rw [cursorWatermark] at read
      split at read
      · exact ⟨r, rfl, Option.some.inj (Except.ok.inj read)⟩
      · nomatch read

theorem cursorWatermark_none {cursor : String} {row : Option StateRow}
    (read : cursorWatermark cursor row = .ok none) : row = none := by
  cases row with
  | none => rfl
  | some r =>
      rw [cursorWatermark] at read
      split at read <;> nomatch read

section writeState

variable {state : List StateRow} {wm : Text} {mode : Mode} {n : Nat}

theorem row_self (landed : d.state = writeState c b state wm mode n) :
    d.row b.destKey b.sourceId = some ⟨b.destKey, b.sourceId, c.col, wm, Mode.text mode, n⟩ := by
  rw [Db.row, landed, writeState, List.find?_append, List.find?_eq_none.mpr, Option.none_or]
  · simp
  · intro r mem is
    exact of_decide_eq_true (List.mem_filter.mp mem).2 (of_decide_eq_true is)

theorem row_other (landed : d.state = writeState c b state wm mode n) (ne : s ≠ b.sourceId) :
    d.row b.destKey s = state.find? fun r => r.destTable = b.destKey ∧ r.sourceId = s := by
  have both : (fun r : StateRow => decide
      (decide (¬(r.destTable = b.destKey ∧ r.sourceId = b.sourceId)) = true ∧
        decide (r.destTable = b.destKey ∧ r.sourceId = s) = true)) =
          fun r => decide (r.destTable = b.destKey ∧ r.sourceId = s) := by
    funext r
    by_cases same : r.sourceId = s
    · simp [same, ne]
    · simp [same]
  rw [Db.row, landed, writeState, List.find?_append, List.find?_filter, both, List.find?_singleton,
    if_neg (by simp [ne.symm]), Option.or_none]

theorem mem_writeState {r : StateRow} (mem : r ∈ writeState c b state wm mode n) :
    r ∈ state ∨ r.destTable = b.destKey := by
  obtain mem | mem := List.mem_append.mp mem
  · exact .inl (List.mem_filter.mp mem).1
  · exact .inr (List.mem_singleton.mp mem ▸ rfl)

end writeState

theorem stateRows_ne {key : String} {r : StateRow} (there : d.row key s = some r) :
    d.stateRows key ≠ 0 := by
  have mem := List.mem_of_find?_eq_some there
  have same : r.destTable = key ∧ r.sourceId = s := by
    have found := List.find?_some there
    exact of_decide_eq_true found
  exact Nat.pos_iff_ne_zero.mp (List.countP_pos_iff.mpr ⟨r, mem, decide_eq_true same.1⟩)

/-- A qualified key's bare spelling is another one. -/
theorem bare_ne {key : String} (qualified : (pgStateKeys key).2 = key) :
    (pgStateKeys key).1 ≠ key := by
  unfold pgStateKeys at *
  split at *
  · rename_i head bare cut
    intro same
    have short := List.length_dropWhile_le (· ≠ '.') key.toList
    rw [cut, ← same] at short
    simp at short
  · intro _
    have long := congrArg String.length qualified
    simp at long

theorem rows_eq_nil (missing : d.final = none) : d.rows = [] := by rw [Db.rows, missing]; rfl

variable [LinearOrder κ]

/-- What a look finds in a table that is there. -/
inductive Finds (c : Cursor κ) (b : Bound) (at_ : Nat → Db κ) : Option Text → Prop
  | empty (none_there : (at_ 3).rows = []) : Finds c b at_ none
  | own {r : StateRow} (row : (at_ 2).ownRow b.destKey b.sourceId = some r) :
      Finds c b at_ (some r.watermark)
  | data (own : (at_ 2).ownRow b.destKey b.sourceId = none) (some_there : (at_ 3).rows ≠ [])
      (alone : (at_ 4).stateRows b.destKey = 0) : Finds c b at_ (tableWatermark c (at_ 5).rows)

theorem destState_finds {at_ : Nat → Db κ} {st : DestState} (found : destState c b at_ = .ok st) :
    ((at_ 0).final = none ∧ st = ⟨false, none⟩) ∨
      ((at_ 0).final.isSome ∧ st.present = true ∧ Finds c b at_ st.watermark) := by
  rw [destState] at found
  cases there : (at_ 0).final with
  | none =>
      rw [there] at found
      exact .inl ⟨rfl, (Except.ok.inj found).symm⟩
  | some table =>
      refine .inr ⟨rfl, ?_⟩
      rw [there] at found
      dsimp only at found
      split at found
      · nomatch found
      · cases read : cursorWatermark c.col ((at_ 2).ownRow b.destKey b.sourceId) with
        | error e =>
            rw [read] at found
            nomatch found
        | ok fromState =>
            rw [read] at found
            change (if (at_ 3).rows.isEmpty = true then _ else _) = _ at found
            split at found
            · rename_i empty
              obtain rfl := Except.ok.inj found
              exact ⟨rfl, .empty (List.isEmpty_iff.mp empty)⟩
            · rename_i nonempty
              have some_there : (at_ 3).rows ≠ [] := fun is => nonempty (List.isEmpty_iff.mpr is)
              cases fromState with
              | some wm =>
                  obtain ⟨r, own, rfl⟩ := cursorWatermark_some read
                  obtain rfl := Except.ok.inj found
                  exact ⟨rfl, .own own⟩
              | none =>
                  have own := cursorWatermark_none read
                  by_cases siblings : (at_ 4).stateRows b.destKey > 0
                  · simp [Plan.resolveWatermark, siblings] at found
                  · simp only [Plan.resolveWatermark, Option.isNone_none, siblings, and_false,
                      decide_false, not_false_eq_true, and_self, if_true] at found
                    obtain rfl := Except.ok.inj found
                    exact ⟨rfl, .data own some_there (by omega)⟩

/-- Rows in the table, a missing own row and somebody else's: refused. -/
theorem destState_refuses {at_ : Nat → Db κ} (there : (at_ 0).final.isSome)
    (own : (at_ 2).ownRow b.destKey b.sourceId = none) (rows : (at_ 3).rows ≠ [])
    (siblings : (at_ 4).stateRows b.destKey ≠ 0) : ∃ e, destState c b at_ = .error e := by
  cases found : destState c b at_ with
  | error e => exact ⟨e, rfl⟩
  | ok st =>
      obtain ⟨missing, -⟩ | ⟨-, -, finds⟩ := destState_finds found
      · rw [missing] at there
        nomatch there
      · obtain ⟨present, watermark⟩ := st
        cases finds with
        | empty none_there => exact absurd none_there rows
        | own row =>
            rw [own] at row
            nomatch row
        | data _ _ alone => exact absurd alone siblings

theorem tableWatermark_some {rows : List (Landed κ)} (nonempty : rows ≠ []) :
    ∃ v, (rows.map Prod.snd).max? = some v ∧ tableWatermark c rows = some (c.text v) := by
  cases max : (rows.map Prod.snd).max? with
  | none =>
      rw [List.max?_eq_none_iff, List.map_eq_nil_iff] at max
      exact absurd max nonempty
  | some v => exact ⟨v, rfl, by rw [tableWatermark, max, Option.map_some]⟩

/-- What a landing changes. -/
structure Lands (c : Cursor κ) (b : Bound) (mode : Mode) (staged : List (Landed κ)) (d d' : Db κ) :
    Prop where
  before : (mode = .replace ∧ d.final = none) ∨ (mode = .append ∧ d.final.isSome)
  final : d'.final.isSome
  rows : d'.rows = d.rows ++ staged
  own : ∃ v, (staged.map Prod.snd).max? = some v ∧
    ∃ r, d'.row b.destKey b.sourceId = some r ∧ r.watermark = c.text v
  others : ∀ s ≠ b.sourceId, d'.row b.destKey s = d.row b.destKey s ∨
    (d.final = none ∧ d'.row b.destKey s = none)
  keys : ∀ r ∈ d'.state, r ∈ d.state ∨ r.destTable = b.destKey

theorem finalize_lands {mode : Mode} {staging : Name} {staged : List (Landed κ)}
    (qualified : (pgStateKeys b.destKey).2 = b.destKey) (nonempty : staged ≠ [])
    (landed : finalize c b d .incremental mode staging staged = some d') :
    Lands c b mode staged d d' := by
  obtain ⟨v, max, mark⟩ := tableWatermark_some (c := c) nonempty
  unfold finalize at landed
  cases mode with
  | replace =>
      simp only [mark] at landed
      split at landed
      · nomatch landed
      · rename_i absent
        have missing : d.final = none := by simpa [flippedBootstrap] using absent
        obtain rfl := Option.some.inj landed
        refine ⟨.inl ⟨rfl, missing⟩, rfl, ?_, ⟨v, max, _, row_self rfl, rfl⟩, fun s ne => ?_,
          fun r mem => ?_⟩
        · simp [Db.rows, missing]
        · refine .inr ⟨missing, (row_other rfl ne).trans
            (List.find?_eq_none.mpr fun r mem is => ?_)⟩
          have kept := of_decide_eq_true (List.mem_filter.mp mem).2
          exact kept (.inr ((of_decide_eq_true is).1.trans qualified.symm))
        · exact (mem_writeState mem).imp (fun mem => (List.mem_filter.mp mem).1) id
  | append =>
      simp only [mark] at landed
      obtain ⟨t, there, rfl⟩ := Option.map_eq_some_iff.mp landed
      refine ⟨.inr ⟨rfl, there ▸ rfl⟩, rfl, ?_, ⟨v, max, _, row_self rfl, rfl⟩, fun s ne => ?_,
        fun r mem => mem_writeState mem⟩
      · simp [Db.rows, there]
      · exact .inl (row_other rfl ne)
  | merge => nomatch landed
  | logBased => nomatch landed

theorem Lands.held {mode : Mode} {staged : List (Landed κ)} (lands : Lands c b mode staged d d')
    (v : κ) : d'.held s v = d.held s v + staged.count (s, v) := by
  rw [Db.held, Db.held, lands.rows, List.count_append]

theorem held_eq_zero (none_there : d.rows = []) (v : κ) : d.held s v = 0 := by
  rw [Db.held, none_there, List.count_nil]

theorem finalize_objects {kind : LandKind} {mode : Mode} {staging : Name} {staged : List (Landed κ)}
    (landed : finalize c b d kind mode staging staged = some d') :
    d'.objects = d.objects.filter (· ≠ staging) := by
  unfold finalize at landed
  cases mode with
  | replace =>
      dsimp only at landed
      split at landed
      · nomatch landed
      · rw [← Option.some.inj landed]
  | append =>
      obtain ⟨t, -, rfl⟩ := Option.map_eq_some_iff.mp landed
      rfl
  | merge => nomatch landed
  | logBased => nomatch landed

end sink

end Apitap.Append
