import Apitap.Logbased.CollapseOverlay
import Apitap.Logbased.CurrentView

/-!
# Masks are rebuilt to the source's row

A record of the log is read on its own, so a cell the WAL left out is found again
before the record is written: in the carry, under the key the row was at, or in what
the destination held there before the window. Between them the two always hold the
row an event is about, through moves, reuses and truncates, and the one readback list
fixed before the walk asks for every cell that only the destination holds.
-/

namespace Apitap

theorem keyOf_eq {l : Layout} {k : Key} {row : Tuple} (key : l.keyTexts row.toCells = some k) :
    keyOf row l.keyIdx = k := by
  have texts := Layout.keyTexts_eq_some_iff.mp key
  rw [keyOf]
  clear key
  generalize l.keyIdx = idx at texts
  induction texts with
  | nil => rfl
  | cons here _ ih =>
      rw [List.map_cons, ih, Tuple.get_eq, here]

/-! ## What a window captures -/

namespace Changes

/-- The records one op lands. -/
def records (l : Layout) (op : StreamOp) : List Change := ((new l).land 0 op).events

/-- An update's image, its key cells in place. -/
def imageOf (l : Layout) (old : Option Tuple) (row : Tuple) : Tuple :=
  match old with
  | some o => keyFromOld l.keyIdx o row
  | none => row

theorem update_events (c : Changes) (old : Option Tuple) (row : Tuple) :
    (c.update old row).events =
      c.events ++ (c.movedOff old (imageOf c.layout old row)).1 ++
        [⟨.update, some (imageOf c.layout old row),
          (c.movedOff old (imageOf c.layout old row)).2⟩] := by
  cases old <;> rfl

theorem land_events (c : Changes) (pos : Nat) (op : StreamOp) :
    (c.land pos op).events = c.events ++ records c.layout op ∧
      (c.land pos op).layout = c.layout := by
  cases op with
  | insert row => exact ⟨rfl, rfl⟩
  | update old row full =>
      refine ⟨?_, rfl⟩
      rw [records, land, land, update_events, update_events, List.append_assoc]
      cases old <;> rfl
  | delete old => exact ⟨rfl, rfl⟩
  | truncate => exact ⟨rfl, rfl⟩

theorem captured_events (l : Layout) (ops : List StreamOp) :
    (captured l ops).events = ops.flatMap (records l) ∧ (captured l ops).layout = l := by
  have go : ∀ c : Changes, c.layout = l →
      (ops.foldl (fun c op => c.land 0 op) c).events = c.events ++ ops.flatMap (records l) ∧
        (ops.foldl (fun c op => c.land 0 op) c).layout = l := by
    induction ops with
    | nil => exact fun c layout => ⟨(List.append_nil _).symm, layout⟩
    | cons op ops ih =>
        intro c layout
        obtain ⟨events, kept⟩ := c.land_events 0 op
        obtain ⟨events', layout'⟩ := ih (c.land 0 op) (kept.trans layout)
        rw [List.foldl_cons, events', events, layout, List.flatMap_cons, List.append_assoc]
        exact ⟨rfl, layout'⟩
  exact go (new l) rfl

/-- A record whose cells are to be rebuilt, with the columns it asks for. -/
def Asked (l : Layout) (keys : List Key) (cols : List Nat) (e : Change) : Prop :=
  e.op ≠ .delete → ∀ row, e.row = some row → row.hasToast = true →
    cellsAt l.keyIdx row e.movedFrom ∈ keys ∧
      ∀ i, row.toCells[i]? = some .unchangedToast → i ∈ cols

theorem asked_maskPlan (c : Changes) {e : Change} (mem : e ∈ c.events) :
    Asked c.layout c.maskPlan.1 c.maskPlan.2 e := by
  intro op row held toast
  obtain ⟨asks, plan, found⟩ : ∃ asks : Change → Option (Key × List Nat),
      c.maskPlan = (((c.events.filterMap asks).map Prod.fst).eraseDups,
        ((c.events.filterMap asks).flatMap Prod.snd).eraseDups.insertionSort (· ≤ ·)) ∧
      asks e = some (cellsAt c.layout.keyIdx row e.movedFrom, maskedAt row) := by
    refine ⟨_, rfl, ?_⟩
    obtain ⟨kind, _, movedFrom⟩ := e
    obtain rfl := held
    cases kind with
    | delete => exact absurd rfl op
    | insert | update | truncate => exact if_pos toast
  have ask : (cellsAt c.layout.keyIdx row e.movedFrom, maskedAt row) ∈ c.events.filterMap asks :=
    List.mem_filterMap.mpr ⟨e, mem, found⟩
  rw [plan]
  refine ⟨?_, fun i masked => ?_⟩
  · exact List.mem_eraseDups.mpr (List.mem_map.mpr ⟨_, ask, rfl⟩)
  · refine (List.mem_insertionSort _).mpr
      (List.mem_eraseDups.mpr (List.mem_flatMap.mpr ⟨_, ask, ?_⟩))
    obtain ⟨short, -⟩ := List.getElem?_eq_some_iff.mp masked
    rw [Tuple.length_toCells] at short
    refine List.mem_filter.mpr ⟨List.mem_range.mpr short, decide_eq_true ?_⟩
    rw [Tuple.get_eq, masked]

/-- Filled from a whole row, an image stands for the row it patches to. -/
theorem fillCells_patch {names : List String} {value : Nat → Option Value} {i : Nat}
    {row cur : List Cell} (width : row.length = cur.length)
    (filled : ∀ j c, row[j]? = some .unchangedToast → cur[j]? = some c →
      ∃ v, value (i + j) = some v ∧ v.cell = c) :
    fillCells names value i row = .ok (patch row cur) := by
  induction row generalizing i cur with
  | nil => rfl
  | cons c row ih =>
      cases cur with
      | nil => nomatch width
      | cons b cur =>
          have rest : fillCells names value (i + 1) row = .ok (patch row cur) := by
            refine ih (Nat.succ.inj width) fun j c masked there => ?_
            have shift := filled (j + 1) c masked there
            rwa [show i + (j + 1) = i + 1 + j by omega] at shift
          by_cases masked : c = .unchangedToast
          · subst masked
            obtain ⟨v, known, rfl⟩ := filled 0 b rfl rfl
            rw [Nat.add_zero] at known
            simp only [fillCells, known, rest, Except.map, patch, if_true]
          · cases c <;> simp_all [fillCells, patch, Except.map]

theorem fillCells_whole {names : List String} {value : Nat → Option Value} {row : List Cell}
    (whole : .unchangedToast ∉ row) : fillCells names value 0 row = .ok row := by
  have filled : fillCells names value 0 row = .ok (patch row row) :=
    fillCells_patch rfl fun j c masked _ => absurd (List.mem_of_getElem? masked) whole
  rwa [patch_of_whole row whole] at filled

/-- With nothing masked, every record keeps its own row. -/
theorem resolveFrom_plain {l : Layout} {cols : List Nat} {base : Key → Option (List Value)}
    {carry : Carry} {truncated : Bool} {events : List Change}
    (plain : ∀ e ∈ events, e.op ≠ .delete → ∀ row, e.row = some row → row.hasToast = false) :
    resolveFrom l cols base carry truncated events = .ok (events.map fun _ => none) := by
  induction events generalizing carry truncated with
  | nil => rfl
  | cons e events ih =>
      have rest (carry : Carry) (truncated : Bool) :
          resolveFrom l cols base carry truncated events = .ok (events.map fun _ => none) :=
        ih fun e mem => plain e (.tail _ mem)
      obtain ⟨kind, row, movedFrom⟩ := e
      have here := plain _ (.head events)
      cases row with
      | none => cases kind <;> simp only [resolveFrom, rest, Except.map, List.map_cons]
      | some row =>
          have whole (op : kind ≠ .delete) : fillCells l.cols
              (fun i => (carry (cellsAt l.keyIdx row movedFrom) i).or
                (if truncated then none else fromDest cols base (cellsAt l.keyIdx row movedFrom) i))
              0 row.toCells = .ok row.toCells := by
            refine fillCells_whole fun masked => ?_
            rw [← Tuple.hasToast_iff, here op row rfl] at masked
            nomatch masked
          cases kind with
          | delete | truncate => simp only [resolveFrom, rest, Except.map, List.map_cons]
          | insert | update =>
              simp only [resolveFrom, whole nofun, Except.bind, rest, Except.map, List.map_cons,
                here nofun row rfl, if_neg Bool.false_ne_true]

/-! ## One op -/

/-- The row at each key is in the carry, whole, or still the pre-window one. -/
def Carried {l : Layout} (S₀ S : SourceTable l) (carry : Carry) (truncated : Bool) : Prop :=
  ∀ k row, S.rows k = some row →
    (∀ i c, row[i]? = some c → carry k i = valueOf c) ∨
      (∀ i, carry k i = none) ∧ truncated = false ∧ S₀.rows k = some row

/-- The destination answers for the pre-window rows. -/
def Based {l : Layout} (S₀ : SourceTable l) (keys : List Key) (cols : List Nat)
    (base : Key → Option (List Value)) : Prop :=
  ∀ k row, S₀.rows k = some row → k ∈ keys → ∀ i c, row[i]? = some c → i ∈ cols →
    fromDest cols base k i = valueOf c

section

variable {l : Layout} {S₀ S S' : SourceTable l} {keys : List Key} {cols : List Nat}
  {base : Key → Option (List Value)} {carry : Carry} {truncated : Bool}

theorem Carried.erase (carried : Carried S₀ S carry truncated) (k : Key) :
    Carried S₀ (S.erase k) carry truncated := by
  intro j row held
  rw [SourceTable.erase_rows] at held
  by_cases same : j = k
  · rw [same, Function.update_self] at held
    cases held
  · rw [Function.update_of_ne same] at held
    exact carried j row held

theorem Carried.put (carried : Carried S₀ S carry truncated) {k : Key} {row : List Cell}
    (isRow : l.IsRow k row) :
    Carried S₀ (S.put k row isRow) (carryOn carry k row) truncated := by
  intro j row' held
  rw [SourceTable.put_rows] at held
  by_cases same : j = k
  · rw [same, Function.update_self] at held
    obtain rfl := Option.some.inj held
    refine .inl fun i c there => ?_
    have shipped : c ≠ .unchangedToast := fun toast =>
      isRow.whole (toast ▸ List.mem_of_getElem? there)
    rw [same, carryOn, Function.update_self, there, Option.bind_some]
    cases c <;> simp_all [valueOf]
  · rw [Function.update_of_ne same] at held
    have kept : carryOn carry k row j = carry j := Function.update_of_ne same _ _
    rw [kept]
    exact carried j row' held

theorem cell_of_valueOf {c : Cell} {v : Value} (known : valueOf c = some v) : v.cell = c := by
  cases c <;> simp_all [valueOf, Value.cell] <;> subst known <;> rfl

/-- The cells an update leaves out are found at the key its row was at. -/
theorem fill_masked (carried : Carried S₀ S carry truncated) (based : Based S₀ keys cols base)
    {j : Key} {cur : List Cell} {row : Tuple} (held : S.rows j = some cur)
    (width : row.toCells.length = cur.length)
    (asked : row.hasToast = true →
      j ∈ keys ∧ ∀ i, row.toCells[i]? = some .unchangedToast → i ∈ cols) :
    fillCells l.cols (fun i => (carry j i).or (if truncated then none else fromDest cols base j i))
      0 row.toCells = .ok (patch row.toCells cur) := by
  refine fillCells_patch width fun i c masked there => ?_
  have toast : row.hasToast = true := row.hasToast_iff.mpr (List.mem_of_getElem? masked)
  have whole : c ≠ .unchangedToast := fun hole =>
    (S.keyed j cur held).whole (hole ▸ List.mem_of_getElem? there)
  obtain ⟨v, known⟩ : ∃ v, valueOf c = some v := by cases c <;> simp_all [valueOf]
  refine ⟨v, ?_, cell_of_valueOf known⟩
  rw [Nat.zero_add]
  obtain inWindow | ⟨fresh, untruncated, before⟩ := carried j cur held
  · rw [inWindow i c there, known, Option.some_or]
  · rw [fresh i, Option.none_or, untruncated, if_neg Bool.false_ne_true,
      based j cur before (asked toast).1 i c there ((asked toast).2 i masked), known]

/-- An update whose row stays is its image; one that moves it is the old row's `D`
before that. -/
theorem records_update {old : Option Tuple} {row : Tuple} (full : Bool) {j k : Key}
    (oldKey : l.keyTexts (old.getD row).toCells = some j)
    (key : l.keyTexts (imageOf l old row).toCells = some k) :
    (j = k ∧ records l (.update old row full) = [⟨.update, some (imageOf l old row), none⟩]) ∨
      ∃ o, old = some o ∧ records l (.update old row full) =
        [⟨.delete, some o, none⟩, ⟨.update, some (imageOf l old row), some j⟩] := by
  have written : records l (.update old row full) =
      ((new l).movedOff old (imageOf l old row)).1 ++
        [⟨.update, some (imageOf l old row), ((new l).movedOff old (imageOf l old row)).2⟩] :=
    update_events (new l) old row
  rw [written]
  cases old with
  | none => exact .inl ⟨Option.some.inj (oldKey.symm.trans key), rfl⟩
  | some o =>
      have from_o : keyOf o l.keyIdx = j := keyOf_eq oldKey
      have off : (new l).movedOff (some o) (imageOf l (some o) row) =
          if j ≠ k then ([⟨.delete, some o, none⟩], some j) else ([], none) := by
        rw [← from_o, ← keyOf_eq key]
        rfl
      rw [off]
      by_cases stays : j = k
      · exact .inl ⟨stays, by rw [if_neg (not_not.mpr stays), List.nil_append]⟩
      · exact .inr ⟨o, rfl, by rw [if_pos stays]; rfl⟩

theorem sourceTable_ext {l : Layout} {S S' : SourceTable l} (same : S.rows = S'.rows) :
    S = S' := by
  cases S
  cases same
  rfl

/-- What resolving leaves of a record: nothing for a `D` or a `T`; for an image a
rebuilt row just when it carried an unchanged-TOAST cell, and either way the row the
table holds at its key. -/
def Rebuilt (T : SourceTable l) (e : Change) (rebuilt : Option Tuple) : Prop :=
  match e.op, e.row with
  | .insert, some row | .update, some row =>
      rebuilt.isSome = row.hasToast ∧
        T.rows (keyOf row l.keyIdx) = some (rebuilt.getD row).toCells
  | _, _ => rebuilt = none

/-- How an op's records resolve. -/
def Rebuilds (S₀ S' : SourceTable l) (cols : List Nat) (base : Key → Option (List Value))
    (carry : Carry) (truncated : Bool) (events : List Change) : Prop :=
  ∃ rows carry' truncated',
    (∀ rest, resolveFrom l cols base carry truncated (events ++ rest) =
      (resolveFrom l cols base carry' truncated' rest).map (rows ++ ·)) ∧
    Carried S₀ S' carry' truncated' ∧ List.Forall₂ (Rebuilt S') events rows

/-- The image of an insert or update, filled at the key its row was at, is rebuilt to
the source's new row. -/
theorem rebuilds_image (carried : Carried S₀ S carry truncated) {op : ChangeOp} {row : Tuple}
    {movedFrom : Option Key} {j k : Key} {cur : List Cell} (kind : op = .insert ∨ op = .update)
    (src : cellsAt l.keyIdx row movedFrom = j) (key : l.keyTexts row.toCells = some k)
    (isRow : l.IsRow k (patch row.toCells cur))
    (filled : fillCells l.cols
      (fun i => (carry j i).or (if truncated then none else fromDest cols base j i)) 0 row.toCells =
        .ok (patch row.toCells cur)) :
    Rebuilds S₀ (S.put k _ isRow) cols base carry truncated [⟨op, some row, movedFrom⟩] := by
  refine ⟨[if row.hasToast then some (.fromCells (patch row.toCells cur)) else none],
    carryOn carry k (patch row.toCells cur), truncated, fun rest => ?_, carried.put isRow,
    .cons ?_ .nil⟩
  · obtain rfl | rfl := kind <;>
      simp only [List.singleton_append, resolveFrom, src, filled, Except.bind, keyOf_eq key]
  · -- the row that is logged, rebuilt or as it came
    have logged : ((if row.hasToast then some (.fromCells (patch row.toCells cur)) else none :
        Option Tuple).getD row).toCells = patch row.toCells cur := by
      cases toast : row.hasToast with
      | true => exact Tuple.toCells_fromCells _
      | false =>
          have whole : .unchangedToast ∉ row.toCells := by
            rw [← Tuple.hasToast_iff, toast]
            nofun
          exact (patch_of_whole cur whole).symm
    have present : (if row.hasToast then some (.fromCells (patch row.toCells cur)) else none :
        Option Tuple).isSome = row.hasToast := by
      cases row.hasToast <;> rfl
    have held : (S.put k _ isRow).rows (keyOf row l.keyIdx) = some ((if row.hasToast then
        some (.fromCells (patch row.toCells cur)) else none : Option Tuple).getD row).toCells := by
      rw [keyOf_eq key, logged, SourceTable.put_rows, Function.update_self]
    obtain rfl | rfl := kind <;> exact ⟨present, held⟩

/-- A record of a row that died asks for nothing and leaves the carry alone. -/
theorem Rebuilds.delete {old : Tuple} {events : List Change}
    (rebuilds : Rebuilds S₀ S' cols base carry truncated events) :
    Rebuilds S₀ S' cols base carry truncated (⟨.delete, some old, none⟩ :: events) := by
  obtain ⟨rows, carry', truncated', resolved, carried', rebuilt⟩ := rebuilds
  refine ⟨none :: rows, carry', truncated', fun rest => ?_, carried', .cons rfl rebuilt⟩
  rw [List.cons_append, resolveFrom, resolved]
  cases resolveFrom l cols base carry' truncated' rest <;> rfl

theorem rebuilds_nil (carried : Carried S₀ S carry truncated) :
    Rebuilds S₀ S cols base carry truncated [] := by
  refine ⟨[], carry, truncated, fun rest => ?_, carried, .nil⟩
  rw [List.nil_append]
  cases resolveFrom l cols base carry truncated rest <;> rfl

/-- An update's image with its key cells in place stands for the same row. -/
theorem imageOf_spec {old : Option Tuple} {row : Tuple} {j k : Key} {cur : List Cell}
    (oldKey : l.keyTexts (old.getD row).toCells = some j) (isRowCur : l.IsRow j cur)
    (isRow : l.IsRow k (patch row.toCells cur)) :
    patch (imageOf l old row).toCells cur = patch row.toCells cur ∧
      l.keyTexts (imageOf l old row).toCells = some k := by
  cases old with
  | none =>
      have kept : l.keyTexts (patch row.toCells cur) = some j := Layout.keyTexts_patch oldKey cur
      rw [isRow.key] at kept
      exact ⟨rfl, oldKey.trans kept.symm⟩
  | some o => exact Collapser.keyFromOld_spec oldKey isRowCur.key isRow.key

theorem rebuilds_update (carried : Carried S₀ S carry truncated) (based : Based S₀ keys cols base)
    {old : Option Tuple} {row : Tuple} {full : Bool}
    (legal : S.step? (.update old row full) = some S')
    (asked : ∀ e ∈ records l (.update old row full), Asked l keys cols e) :
    Rebuilds S₀ S' cols base carry truncated (records l (.update old row full)) := by
  obtain ⟨j, cur, k, isRow, oldKey, held, -, -, rfl⟩ := SourceTable.step?_update legal
  have isRowCur := S.keyed j cur held
  obtain ⟨same, key⟩ := imageOf_spec oldKey isRowCur isRow
  have isRow' : l.IsRow k (patch (imageOf l old row).toCells cur) := same.symm ▸ isRow
  have width : (imageOf l old row).toCells.length = cur.length := by
    rw [← length_patch _ cur, isRow'.width, isRowCur.width]
  have filled := fill_masked carried based held width
  have target : (S.erase j).put k _ isRow' = (S.erase j).put k _ isRow := by
    refine sourceTable_ext ?_
    rw [SourceTable.put_rows, SourceTable.put_rows, same]
  rw [← target]
  obtain ⟨rfl, written⟩ | ⟨o, rfl, written⟩ := records_update full oldKey key
  · rw [written] at asked ⊢
    have src : cellsAt l.keyIdx (imageOf l old row) none = j := keyOf_eq key
    exact rebuilds_image (carried.erase j) (.inr rfl) src key isRow' (filled fun toast =>
      src ▸ asked _ (.head _) nofun _ rfl toast)
  · rw [written] at asked ⊢
    exact .delete (rebuilds_image (carried.erase j) (.inr rfl) rfl key isRow' (filled fun toast =>
      asked _ (.tail _ (.head _)) nofun _ rfl toast))

/-- One legal op, whatever it is. -/
theorem rebuilds_step (carried : Carried S₀ S carry truncated) (based : Based S₀ keys cols base)
    {op : StreamOp} (legal : S.step? op = some S')
    (asked : ∀ e ∈ records l op, Asked l keys cols e) :
    Rebuilds S₀ S' cols base carry truncated (records l op) := by
  cases op with
  | insert row =>
      obtain ⟨k, isRow, -, rfl⟩ := SourceTable.step?_insert legal
      have same : patch row.toCells row.toCells = row.toCells := patch_of_whole _ isRow.whole
      have isRow' : l.IsRow k (patch row.toCells row.toCells) := same.symm ▸ isRow
      have rebuilds : Rebuilds S₀ (S.put k _ isRow') cols base carry truncated
          [⟨.insert, some row, none⟩] :=
        rebuilds_image carried (.inl rfl) rfl isRow.key isRow'
          (by rw [same]; exact fillCells_whole isRow.whole)
      have target : S.put k _ isRow' = S.put k _ isRow := by
        refine sourceTable_ext ?_
        rw [SourceTable.put_rows, SourceTable.put_rows, same]
      exact target ▸ rebuilds
  | update old row full => exact rebuilds_update carried based legal asked
  | delete old =>
      obtain ⟨k, cur, key, held, rfl⟩ := SourceTable.step?_delete legal
      exact .delete (rebuilds_nil (carried.erase k))
  | truncate =>
      obtain rfl : SourceTable.empty l = S' := Option.some.inj legal
      exact ⟨[none], fun _ _ => none, true, fun rest => rfl, nofun, .cons rfl .nil⟩

/-! ## A window -/

/-- The source's table right after the op of each captured record. -/
def tablesAfter (S : SourceTable l) : List StreamOp → List (SourceTable l)
  | [] => []
  | op :: ops =>
      match S.step? op with
      | some S' => (records l op).map (fun _ => S') ++ tablesAfter S' ops
      | none => []

theorem length_tablesAfter {ops : List StreamOp} (legal : S.run? ops = some S') :
    (tablesAfter S ops).length = (ops.flatMap (records l)).length := by
  induction ops generalizing S with
  | nil => rfl
  | cons op ops ih =>
      obtain ⟨S₁, first, rest⟩ := Option.bind_eq_some_iff.mp legal
      rw [tablesAfter, first, List.length_append, List.length_map, ih rest, List.flatMap_cons,
        List.length_append]

/-- A legal window resolves, every record to the source's table after its own op. -/
theorem rebuilds_run (carried : Carried S₀ S carry truncated) (based : Based S₀ keys cols base)
    {ops : List StreamOp} (legal : S.run? ops = some S')
    (asked : ∀ e ∈ ops.flatMap (records l), Asked l keys cols e) :
    ∃ rows, resolveFrom l cols base carry truncated (ops.flatMap (records l)) = .ok rows ∧
      List.Forall₂ (fun e rebuilt => Rebuilt e.2 e.1 rebuilt)
        ((ops.flatMap (records l)).zip (tablesAfter S ops)) rows := by
  induction ops generalizing S carry truncated with
  | nil => exact ⟨[], rfl, .nil⟩
  | cons op ops ih =>
      obtain ⟨S₁, first, rest⟩ := Option.bind_eq_some_iff.mp legal
      obtain ⟨rows, carry₁, truncated₁, resolved, carried₁, rebuilt⟩ :=
        rebuilds_step carried based first fun e mem => asked e (List.mem_append_left _ mem)
      obtain ⟨rows', resolved', rebuilt'⟩ :=
        ih carried₁ rest fun e mem => asked e (List.mem_append_right _ mem)
      refine ⟨rows ++ rows', ?_, ?_⟩
      · rw [List.flatMap_cons, resolved, resolved']
        rfl
      · have long : (records l op).length = ((records l op).map fun _ => S₁).length :=
          (List.length_map _).symm
        rw [tablesAfter, first, List.flatMap_cons, List.zip_append long]
        refine List.rel_append ?_ rebuilt'
        have paired : (records l op).zip ((records l op).map fun _ => S₁) =
            (records l op).map fun e => (e, S₁) := List.map_prod_left_eq_zip.symm
        rw [paired, List.forall₂_map_left_iff]
        exact rebuilt

end

/-- What a readback before the window answers: at every key asked for whose row the
destination holds, the values of the columns asked for, in order. -/
def Answers {l : Layout} (S : SourceTable l) (keys : List Key) (cols : List Nat)
    (base : Key → Option (List Value)) : Prop :=
  ∀ k ∈ keys, ∀ row, S.rows k = some row →
    base k = some (cols.map fun i => (row[i]?.bind valueOf).getD none)

theorem Answers.based {l : Layout} {S : SourceTable l} {keys : List Key} {cols : List Nat}
    {base : Key → Option (List Value)} (answers : Answers S keys cols base) :
    Based S keys cols base := by
  intro k row held mem i c there wanted
  have shipped : c ≠ .unchangedToast := fun hole =>
    (S.keyed k _ held).whole (hole ▸ List.mem_of_getElem? there)
  obtain ⟨p, position, column⟩ : ∃ p, cols.idxOf? i = some p ∧ cols[p]? = some i := by
    cases search : cols.idxOf? i with
    | none => exact absurd wanted (List.idxOf?_eq_none_iff.mp search)
    | some p =>
        obtain ⟨short, here, -⟩ := List.findIdx?_eq_some_iff_getElem.mp search
        exact ⟨p, rfl, List.getElem?_eq_some_iff.mpr ⟨short, beq_iff_eq.mp here⟩⟩
  rw [fromDest, position, Option.bind_some, answers k mem row held, Option.bind_some,
    List.getElem?_map, column, Option.map_some, there, Option.bind_some]
  cases c with
  | unchangedToast => exact absurd rfl shipped
  | null | text => rfl

/-- With the pre-window cells the plan asks for, a legal window's masks resolve, and
each record's row is the one the source holds right after it. -/
theorem masks_rebuilt {l : Layout} {S S' : SourceTable l} {ops : List StreamOp}
    {base : Key → Option (List Value)} (legal : S.run? ops = some S')
    (answers : Answers S (captured l ops).maskPlan.1 (captured l ops).maskPlan.2 base) :
    ∃ rows, (captured l ops).resolveMasked (captured l ops).maskPlan.2 base = .ok rows ∧
      (tablesAfter S ops).length = (captured l ops).events.length ∧
      List.Forall₂ (fun e rebuilt => Rebuilt e.2 e.1 rebuilt)
        ((captured l ops).events.zip (tablesAfter S ops)) rows := by
  obtain ⟨events, layout⟩ := captured_events l ops
  have carried : Carried S S (fun _ _ => none) false :=
    fun k row held => .inr ⟨fun _ => rfl, rfl, held⟩
  obtain ⟨rows, resolved, rebuilt⟩ := rebuilds_run carried answers.based legal fun e mem => by
    have asked := asked_maskPlan (captured l ops) (events ▸ mem)
    rwa [layout] at asked
  rw [resolveMasked, layout, events]
  exact ⟨rows, resolved, length_tablesAfter legal, rebuilt⟩

/-- Row `1` moves to key `2` without its body; the body is read at key `1`, and the new
row at key `1` does not stand in for it. -/
theorem masks_rebuilt_move :
    ∃ rows, (captured Sample.layout (Sample.moveThenReuse.map Prod.snd)).resolveMasked
        (captured Sample.layout (Sample.moveThenReuse.map Prod.snd)).maskPlan.2
        (fun _ => some [some [10]]) = .ok rows ∧
      (tablesAfter Sample.one (Sample.moveThenReuse.map Prod.snd)).length =
        (captured Sample.layout (Sample.moveThenReuse.map Prod.snd)).events.length ∧
      List.Forall₂ (fun e rebuilt => Rebuilt e.2 e.1 rebuilt)
        ((captured Sample.layout (Sample.moveThenReuse.map Prod.snd)).events.zip
          (tablesAfter Sample.one (Sample.moveThenReuse.map Prod.snd))) rows := by
  refine masks_rebuilt (Option.some_get (by decide)).symm fun k mem row held => ?_
  have plan : (captured Sample.layout (Sample.moveThenReuse.map Prod.snd)).maskPlan =
      ([Sample.key 1], [1]) := by decide
  rw [plan] at mem ⊢
  rw [List.mem_singleton.mp mem] at held
  have only : Sample.one.rows (Sample.key 1) = some (Sample.row 1 10) := by decide
  rw [only] at held
  rw [← Option.some.inj held]
  rfl

end Changes

end Apitap
