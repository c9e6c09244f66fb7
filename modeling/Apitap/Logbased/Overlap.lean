import Apitap.Foundation.FuzzyLoad
import Apitap.Logbased.FlatWindow
import Apitap.Logbased.Mysource

/-!
# The overlapped bootstrap

A MySQL bootstrap captures the binlog coordinate before it loads, so the windows it
drains later overlap the load instead of skipping past it. The load is a table the
source never had: a moved row may be in it twice or not at all.
-/

namespace Apitap

open Foundation (LoadedBetween Settles Still bind_eq_ok)

namespace Mysource

/-- Drain one window and apply the table's part of it. -/
def applyWindow (layouts : String → Option Layout) (table destTable : String) (T : Table)
    (txs : List TableTx) : Except Error Table := do
  let bodies : Bodies Collapser ← drainTxs layouts table txs ∅
  let w ← sealTable bodies table
  (DestPg.applyUnit destTable w T).map Prod.snd

section window

variable {layouts : String → Option Layout} {table : String} {l : Layout}

/-- A legal window of whole images never refuses, over any keyed table, and settles the
keys its changes were about. -/
theorem applyWindow_spec (layout : layouts table = some l) (destTable : String)
    {txs : List TableTx} {S S' : SourceTable l} (legal : S.run? (changes txs) = some S')
    (whole : ∀ op ∈ changes txs, op.Whole) {T : Table} (keyed : T.Keyed l) :
    ∃ T', applyWindow layouts table destTable T txs = .ok T' ∧ T'.Keyed l ∧
      ∀ k, T' k = S'.rows k ∨ T' k = T k ∧ ∀ op ∈ changes txs, op ≠ .truncate ∧ k ∉ op.keys l := by
  obtain ⟨c, landed, -⟩ := Collapser.tracks_of_legal legal
  have flat := (Collapser.flat_new l).landAll whole landed
  have landed' : DrainBody.landAll
      (((∅ : Bodies Collapser).lookup table).getD (DrainBody.new l)) (landings txs) = .ok c :=
    (DrainBody.landAll_collapser _ _).trans landed
  obtain ⟨bodies, drained, is, kept⟩ := drainTxs_spec layout landed'
  cases body : bodies.lookup table with
  | none =>
      have nothing : changes txs = [] := by rw [changes, (kept body).2, List.map_nil]
      refine ⟨T, ?_, keyed, fun k => .inr ⟨rfl, fun op mem => ?_⟩⟩
      · simp only [applyWindow, drained, sealTable, body, bind, Except.bind]
        rfl
      · rw [nothing] at mem
        cases mem
  | some c' =>
      obtain rfl : c' = c := by rw [← is, body, Option.getD_some]
      obtain ⟨w, T', closed, applied, keyed', settled⟩ :=
        Collapser.flat_window_lands table destTable legal landed flat.tail keyed
      refine ⟨T', ?_, keyed', settled⟩
      have closed : DrainBody.sealBody c' table = .ok w := closed
      simp only [applyWindow, drained, sealTable, body, closed, applied, bind, Except.bind,
        Except.map]

end window

/-! ## The source's history -/

/-- The table after the first `t` transactions. -/
def tableAt {l : Layout} (S₀ : SourceTable l) (history : List TableTx) (t : Nat) : Table :=
  match S₀.run? (changes (history.take t)) with
  | some S => S.rows
  | none => fun _ => none

section history

variable {l : Layout} {S₀ : SourceTable l} {history txs rest : List TableTx} {m : Nat}

theorem tableAt_eq {t : Nat} {S : SourceTable l}
    (legal : S₀.run? (changes (history.take t)) = some S) : tableAt S₀ history t = S.rows := by
  rw [tableAt, legal]

/-- A legal history is legal up to every moment. -/
theorem run?_take (legal : (S₀.run? (changes history)).isSome = true) (t : Nat) :
    ∃ S, S₀.run? (changes (history.take t)) = some S := by
  rw [← List.take_append_drop t history, changes_append, SourceTable.run?_append] at legal
  cases run : S₀.run? (changes (history.take t)) with
  | some S => exact ⟨S, rfl⟩
  | none =>
      rw [run] at legal
      nomatch legal

/-- The moments of a window that was drained from the moment `m` on. -/
theorem take_window (cut : history.drop m = txs ++ rest) {i : Nat} (le : i ≤ txs.length) :
    history.take (m + i) = history.take m ++ txs.take i := by
  rw [List.take_add, cut, List.take_append_of_le_length le]

/-- A window settles the source's table from its first moment to its last. -/
theorem window_settles (legal : (S₀.run? (changes history)).isSome = true)
    (cut : history.drop m = txs ++ rest) {layouts : String → Option Layout} {table : String}
    (layout : layouts table = some l) (destTable : String)
    (whole : ∀ op ∈ changes txs, op.Whole) {T : Table} (keyed : T.Keyed l) :
    ∃ T', applyWindow layouts table destTable T txs = .ok T' ∧ T'.Keyed l ∧
      Settles (tableAt S₀ history) m (m + txs.length) T T' := by
  obtain ⟨S, before⟩ := run?_take legal m
  obtain ⟨S', after⟩ := run?_take legal (m + txs.length)
  have ran : S.run? (changes txs) = some S' := by
    rw [take_window cut (Nat.le_refl _), List.take_length, changes_append,
      SourceTable.run?_append, before] at after
    exact after
  obtain ⟨T', applied, keyed', settled⟩ := applyWindow_spec layout destTable ran whole keyed
  refine ⟨T', applied, keyed', fun k => ?_⟩
  rw [tableAt_eq after]
  refine (settled k).imp_right fun ⟨kept, apart⟩ => ⟨kept, fun t first last => ?_⟩
  -- what is left of the window after the moment says nothing of the key either
  obtain ⟨i, rfl⟩ := Nat.exists_eq_add_of_le first
  obtain ⟨S₁, now⟩ := run?_take legal (m + i)
  have split : changes txs = changes (txs.take i) ++ changes (txs.drop i) := by
    rw [← changes_append, List.take_append_drop]
  have rest : S₁.run? (changes (txs.drop i)) = some S' := by
    rw [take_window cut (Nat.le_of_add_le_add_left last), changes_append,
      SourceTable.run?_append, before, Option.bind_some] at now
    rw [split, SourceTable.run?_append, now] at ran
    exact ran
  rw [tableAt_eq now, tableAt_eq after]
  refine (SourceTable.run?_frame rest fun op mem => apart op ?_).symm
  rw [split]
  exact List.mem_append_right _ mem

/-- So does a run of windows, each beginning where the last one ended. -/
theorem windows_settle (legal : (S₀.run? (changes history)).isSome = true)
    (whole : ∀ op ∈ changes history, op.Whole) {windows : List (List TableTx)}
    (cut : history.drop m = windows.flatten ++ rest) {layouts : String → Option Layout}
    {table : String} (layout : layouts table = some l) (destTable : String) {T : Table}
    (keyed : T.Keyed l) :
    ∃ T', windows.foldlM (applyWindow layouts table destTable) T = .ok T' ∧
      Settles (tableAt S₀ history) m (m + windows.flatten.length) T T' := by
  induction windows generalizing m T with
  | nil => exact ⟨T, rfl, .refl⟩
  | cons txs windows ih =>
      rw [List.flatten_cons, List.append_assoc] at cut
      have wholeHere : ∀ op ∈ changes txs, op.Whole := by
        intro op mem
        refine whole op ?_
        rw [← List.take_append_drop m history, cut, changes_append, changes_append]
        exact List.mem_append_right _ (List.mem_append_left _ mem)
      obtain ⟨T₁, applied, keyed₁, settled⟩ :=
        window_settles legal cut layout destTable wholeHere keyed
      have next : history.drop (m + txs.length) = windows.flatten ++ rest := by
        rw [← List.drop_drop, cut, List.drop_left]
      obtain ⟨T', ran, settled'⟩ := ih next keyed₁
      refine ⟨T', ?_, ?_⟩
      · rw [List.foldlM_cons, applied]
        exact ran
      · rw [List.flatten_cons, List.length_append, ← Nat.add_assoc]
        exact settled.trans settled' (Nat.le_add_right _ _)

theorem keyed_tableAt (S₀ : SourceTable l) (history : List TableTx) (t : Nat) :
    Table.Keyed l (tableAt S₀ history t) := by
  unfold tableAt
  split
  · exact SourceTable.keyed _
  · nofun

theorem keyed_of_loaded {p q : Nat} {T : Table}
    (loaded : LoadedBetween (tableAt S₀ history) p q T) : T.Keyed l := by
  intro k r held
  obtain ⟨t, -, -, is⟩ := loaded k
  exact keyed_tableAt S₀ history t k r (is ▸ held)

/-- A table whose every key was read between two moments, under the windows drained from
the first one on: none is refused, and past the last read the table is the source's. -/
theorem overlapped_load_converges (legal : (S₀.run? (changes history)).isSome = true)
    (whole : ∀ op ∈ changes history, op.Whole) {layouts : String → Option Layout} {table : String}
    (layout : layouts table = some l) (destTable : String) {p q : Nat} {T : Table}
    (loaded : LoadedBetween (tableAt S₀ history) p q T) {windows : List (List TableTx)}
    (cut : history.drop p = windows.flatten ++ rest) :
    ∃ T', windows.foldlM (applyWindow layouts table destTable) T = .ok T' ∧
      (q ≤ p + windows.flatten.length →
        T' = tableAt S₀ history (p + windows.flatten.length)) := by
  obtain ⟨T', applied, settled⟩ :=
    windows_settle legal whole cut layout destTable (keyed_of_loaded loaded)
  exact ⟨T', applied, loaded.converges settled⟩

end history

end Mysource

/-! ## The bootstrap -/

namespace Myrun

inductive Mode where
  | replace
  | append
  | merge
  | logBased
deriving DecidableEq, Repr

/-- The options a bootstrap changes for its loads. -/
structure TransferOptions where
  mode : Mode
  destTable : Option String
  slots : Option String
  changelog : Bool
  orderBy : Option String
  partitionBy : Option String
deriving DecidableEq, Repr

/-- One member of a MySQL group. -/
structure MyCtx where
  tableArg : String
  /-- The name its events carry. -/
  qualified : String
  destTable : String
deriving DecidableEq, Repr

/-- How many transactions the source has committed, and the destination's tables. -/
structure World where
  moment : Nat
  tables : String → Table

/-- What a bootstrap calls: the checks, the coordinate, and the bulk load of one table,
with its rows and how many lanes it ran on. -/
structure Calls where
  precheck : World → Except Error World
  masterPosition : World → Except Error ((Bytes × Nat) × World)
  fullLoad : String → TransferOptions → World → Except Error ((Nat × Nat) × World)

/-- The options of one member's load. -/
def loadOptions (opts : TransferOptions) (c : MyCtx) : TransferOptions :=
  let o2 := { opts with mode := .replace, destTable := some c.destTable, slots := none }
  -- the changelog's clauses belong to the rebuild, not to the bulk load's table
  if o2.changelog then { o2 with orderBy := none, partitionBy := none } else o2

/-- The members' loads, one after the other. -/
def loadAll (calls : Calls) (opts : TransferOptions) :
    List MyCtx → World → Except Error (List (Nat × Nat) × World)
  | [], w => .ok ([], w)
  | c :: ctxs, w => do
      let (r, w) ← (calls.fullLoad c.tableArg (loadOptions opts c) w).mapError fun e =>
        .transfer (s!"log_based: bootstrap of {c.qualified} failed (no state written; re-run " ++
          s!"re-bootstraps the group): {e.display}")
      let (out, w) ← loadAll calls opts ctxs w
      .ok (r :: out, w)

/-- Capture the coordinate, then load every member. -/
def bootstrap (calls : Calls) (ctxs : List MyCtx) (opts : TransferOptions) (w : World) :
    Except Error ((Nat × List (Nat × Nat)) × World) := do
  let w ← calls.precheck w
  let ((file, pos), w) ← calls.masterPosition w
  let mark := Mysource.packPos file pos
  let (out, w) ← loadAll calls opts ctxs w
  .ok ((mark, out), w)

/-- What the calls do while the source goes on: the coordinate is one the log had
meanwhile, and a load replaces its own table by what it read meanwhile. -/
structure Calls.Live (calls : Calls) (coordinate : Nat → Nat) (history : String → Nat → Table) :
    Prop where
  precheck : ∀ w w', calls.precheck w = .ok w' → w.moment ≤ w'.moment
  masterPosition : ∀ w file pos w', calls.masterPosition w = .ok ((file, pos), w') →
    ∃ p, w.moment ≤ p ∧ p ≤ w'.moment ∧ Mysource.packPos file pos = coordinate p
  fullLoad : ∀ table o w r w', calls.fullLoad table o w = .ok (r, w') → w.moment ≤ w'.moment ∧
    ∀ d, if o.mode = .replace ∧ o.destTable = some d
      then LoadedBetween (history table) w.moment w'.moment (w'.tables d)
      else w'.tables d = w.tables d

section bootstrap

variable {calls : Calls} {coordinate : Nat → Nat} {history : String → Nat → Table}
variable {opts : TransferOptions} {ctxs : List MyCtx} {w w' : World}

theorem loadOptions_spec (opts : TransferOptions) (c : MyCtx) :
    (loadOptions opts c).mode = .replace ∧ (loadOptions opts c).destTable = some c.destTable := by
  unfold loadOptions
  dsimp only
  split <;> exact ⟨rfl, rfl⟩

/-- A load of another member leaves a table alone; the last load of a member's own is one
of a moment since the loads began. -/
theorem loadAll_spec (live : calls.Live coordinate history) {out : List (Nat × Nat)}
    (loads : loadAll calls opts ctxs w = .ok (out, w')) :
    w.moment ≤ w'.moment ∧ ∀ c, (∀ c' ∈ ctxs, c'.destTable = c.destTable → c' = c) →
      (c ∈ ctxs → LoadedBetween (history c.tableArg) w.moment w'.moment (w'.tables c.destTable)) ∧
      (c ∉ ctxs → w'.tables c.destTable = w.tables c.destTable) := by
  induction ctxs generalizing w out with
  | nil =>
      obtain ⟨-, rfl⟩ := Prod.mk.inj (Except.ok.inj loads)
      exact ⟨Nat.le_refl _, fun c _ => ⟨nofun, fun _ => rfl⟩⟩
  | cons c₁ ctxs ih =>
      obtain ⟨⟨r, w₁⟩, first, loads⟩ := bind_eq_ok.mp loads
      obtain ⟨⟨out, w₂⟩, rest, done⟩ := bind_eq_ok.mp loads
      obtain ⟨-, rfl⟩ := Prod.mk.inj (Except.ok.inj done)
      have first : calls.fullLoad c₁.tableArg (loadOptions opts c₁) w = .ok (r, w₁) := by
        cases ran : calls.fullLoad c₁.tableArg (loadOptions opts c₁) w with
        | ok a =>
            rw [ran] at first
            exact first
        | error e =>
            rw [ran] at first
            nomatch first
      obtain ⟨le, wrote⟩ := live.fullLoad _ _ _ _ _ first
      obtain ⟨le', others⟩ := ih rest
      refine ⟨Nat.le_trans le le', fun c own => ?_⟩
      obtain ⟨loaded, kept⟩ := others c fun c' mem => own c' (.tail _ mem)
      have wrote := wrote c.destTable
      obtain ⟨mode, dest⟩ := loadOptions_spec opts c₁
      refine ⟨fun mem => ?_, fun absent => ?_⟩
      · by_cases later : c ∈ ctxs
        · exact (loaded later).mono le (Nat.le_refl _)
        · obtain rfl : c = c₁ := (List.mem_cons.mp mem).resolve_right later
          rw [if_pos ⟨mode, dest⟩] at wrote
          rw [kept later]
          exact wrote.mono (Nat.le_refl _) le'
      · obtain ⟨ne, absent⟩ := not_or.mp (List.mem_cons.not.mp absent)
        have elsewhere : c₁.destTable ≠ c.destTable := fun same => ne (own c₁ (.head _) same).symm
        rw [if_neg fun is => elsewhere (Option.some.inj (dest.symm.trans is.2))] at wrote
        rw [kept absent, wrote]

/-- Every member's load lies between the coordinate's moment and the bootstrap's end. -/
theorem bootstrap_spec (live : calls.Live coordinate history) {mark : Nat}
    {out : List (Nat × Nat)} (ran : bootstrap calls ctxs opts w = .ok ((mark, out), w')) :
    ∃ p, mark = coordinate p ∧ w.moment ≤ p ∧ ∀ c ∈ ctxs,
      (∀ c' ∈ ctxs, c'.destTable = c.destTable → c' = c) →
        LoadedBetween (history c.tableArg) p w'.moment (w'.tables c.destTable) := by
  obtain ⟨w₁, checked, ran⟩ := bind_eq_ok.mp ran
  obtain ⟨⟨⟨file, pos⟩, w₂⟩, asked, ran⟩ := bind_eq_ok.mp ran
  obtain ⟨⟨out, w₃⟩, loads, done⟩ := bind_eq_ok.mp ran
  obtain ⟨is, rfl⟩ := Prod.mk.inj (Except.ok.inj done)
  obtain ⟨rfl, rfl⟩ := Prod.mk.inj is
  obtain ⟨p, after, before, is⟩ := live.masterPosition _ _ _ _ asked
  refine ⟨p, is, Nat.le_trans (live.precheck _ _ checked) after, fun c mem own => ?_⟩
  exact (((loadAll_spec live loads).2 c own).1 mem).mono before (Nat.le_refl _)

open Mysource in
/-- The overlapped bootstrap converges: for every legal history of whole images and
truncates, whatever the loads saw while the source went on, the windows drained from the
captured coordinate, cut anywhere, are never refused, and once they reach past the
bootstrap's end each one leaves the destination at the source's table. -/
theorem overlapped_bootstrap_converges (live : calls.Live coordinate history) {mark : Nat}
    {out : List (Nat × Nat)} (ran : bootstrap calls ctxs opts w = .ok ((mark, out), w'))
    {c : MyCtx} (member : c ∈ ctxs) (own : ∀ c' ∈ ctxs, c'.destTable = c.destTable → c' = c)
    {l : Layout} {layouts : String → Option Layout} (layout : layouts c.qualified = some l)
    {S₀ : SourceTable l} {txs : List TableTx} (source : history c.tableArg = tableAt S₀ txs)
    (legal : (S₀.run? (changes txs)).isSome = true) (whole : ∀ op ∈ changes txs, op.Whole) :
    ∃ p, mark = coordinate p ∧ ∀ windows rest, txs.drop p = List.flatten windows ++ rest →
      ∃ T', windows.foldlM (applyWindow layouts c.qualified c.destTable)
          (w'.tables c.destTable) = .ok T' ∧
        (w'.moment ≤ p + windows.flatten.length →
          T' = tableAt S₀ txs (p + windows.flatten.length)) := by
  obtain ⟨p, is, -, loaded⟩ := bootstrap_spec live ran
  have loaded := source ▸ loaded c member own
  exact ⟨p, is, fun windows rest cut =>
    overlapped_load_converges legal whole layout c.destTable loaded cut⟩

end bootstrap

/-! ### A row read twice -/

open Mysource Sample

/-- Row `1` is there; it moves to key `2`, and then a new row takes key `1`. -/
def busy : List TableTx :=
  [(4, [.insert (image 1 10)]), (100, [.update (some (image 1 10)) (image 2 10)]),
    (200, [.insert (image 1 11)])]

/-- Key `1` as it was before the move, key `2` as it was after. -/
def twice : Table := fun k =>
  if k = key 1 then some (row 1 10) else if k = key 2 then some (row 2 10) else none

/-- The load begins right after the insert and ends right after the move. -/
def readsTwice : Calls where
  precheck w := .ok w
  masterPosition w :=
    if w.moment = 1 then .ok (([98, 46, 49], 4), w) else .error (.transfer "too late")
  fullLoad _ o w :=
    if w.moment = 1 ∧ o.mode = .replace then
      .ok ((2, 1), ⟨2, fun d => if o.destTable = some d then twice else w.tables d⟩)
    else .error (.transfer "too late")

def shopLayouts : String → Option Layout := fun _ => some layout

def movedAt (t : Nat) : Nat := if t = 1 then packPos [98, 46, 49] 4 else 0

theorem loaded_twice : LoadedBetween (tableAt (SourceTable.empty layout) busy) 1 2 twice := by
  have before : (SourceTable.empty layout).run? (changes (busy.take 1)) = some one := rfl
  have after : (SourceTable.empty layout).run? (changes (busy.take 2)) =
    some ((one.erase (key 1)).put (key 2) _ (isRow 2 10)) := rfl
  intro k
  by_cases first : k = key 1
  · refine ⟨1, le_rfl, Nat.le_succ 1, ?_⟩
    rw [tableAt_eq before, twice, if_pos first, first]
    rfl
  · by_cases second : k = key 2
    · refine ⟨2, Nat.le_succ 1, le_rfl, ?_⟩
      rw [tableAt_eq after, twice, if_neg first, if_pos second, second]
      rfl
    · refine ⟨1, le_rfl, Nat.le_succ 1, ?_⟩
      rw [tableAt_eq before, twice, if_neg first, if_neg second]
      exact (Function.update_of_ne first _ (SourceTable.empty layout).rows).symm

theorem readsTwice_live :
    readsTwice.Live movedAt fun _ => tableAt (SourceTable.empty layout) busy where
  precheck w w' is := by
    obtain rfl := Except.ok.inj is
    exact le_rfl
  masterPosition w file pos w' is := by
    simp only [readsTwice] at is
    split at is
    · rename_i now
      obtain ⟨here, rfl⟩ := Prod.mk.inj (Except.ok.inj is)
      obtain ⟨rfl, rfl⟩ := Prod.mk.inj here
      exact ⟨1, Nat.le_of_eq now, Nat.le_of_eq now.symm, rfl⟩
    · nomatch is
  fullLoad table o w r w' is := by
    simp only [readsTwice] at is
    split at is
    · rename_i now
      obtain ⟨rfl, rfl⟩ := Prod.mk.inj (Except.ok.inj is)
      refine ⟨now.1 ▸ Nat.le_succ 1, fun d => ?_⟩
      split
      · rename_i own
        rw [now.1]
        dsimp only
        rw [if_pos own.2]
        exact loaded_twice
      · rename_i other
        exact if_neg fun own => other ⟨now.2, own⟩
    · nomatch is

/-- One window of the move and the new row, over a load that holds the moved row twice. -/
theorem overlapped_bootstrap_converges_moved :
    ∃ T', [busy.drop 1].foldlM (applyWindow shopLayouts "shop.t" "t") twice = .ok T' ∧
      T' = tableAt (SourceTable.empty layout) busy 3 := by
  let c : MyCtx := ⟨"t", "shop.t", "t"⟩
  have ran : bootstrap readsTwice [c] ⟨.logBased, none, none, false, none, none⟩
    ⟨1, fun _ _ => none⟩ = .ok ((packPos [98, 46, 49] 4, [(2, 1)]),
      ⟨2, fun d => if some "t" = some d then twice else fun _ => none⟩) := rfl
  obtain ⟨p, is, converges⟩ := overlapped_bootstrap_converges readsTwice_live ran
    (List.mem_singleton_self c) (fun c' mem _ => List.mem_singleton.mp mem)
    (rfl : shopLayouts c.qualified = some layout)
    (rfl : _ = tableAt (SourceTable.empty layout) busy) rfl (by decide)
  obtain rfl : p = 1 := by
    by_contra ne
    rw [movedAt, if_neg ne] at is
    exact absurd is (by decide)
  obtain ⟨T', applied, past⟩ := converges [busy.drop 1] [] rfl
  exact ⟨T', applied, past (by decide)⟩

end Myrun

end Apitap
