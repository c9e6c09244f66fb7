import Apitap.Logbased.Phases

/-!
# The Postgres destination's apply

One window is one transaction: TRUNCATE, a DELETE of every deleted and every
upserted key, one plain INSERT of the upserts, then the residue tail statement
by statement. The destination table is its rows by primary key. A statement that
would put two rows at one key, or a row with no key, fails, and with it the
transaction, which is what `Except` says.

A key is the same text here and in the collapser, and a bound value is the text
that was bound: the casts and the hex rendering of bytea change a value's
spelling, not the value.
-/

namespace Apitap

open Foundation

/-- What the database answers, as the source wraps it. -/
def dbErr (e : String) : Error := .transfer s!"log_based: {e}"

/-- A key part's text. -/
def utf8Text (p : Bytes) : String := (String.fromUTF8? ⟨p.toArray⟩).getD "\uFFFD"

/-- A residue op whose row is not at the destination: refused, naming it. -/
def missingRow (destTable kind : String) (key : Key) : Error :=
  let k := ", ".intercalate (key.map utf8Text)
  .transfer
    (s!"log_based: the {kind} update of {destTable} key ({k}) found no row at the " ++
      "destination — it was deleted or never arrived there, and its unchanged TOAST " ++
      "value cannot be rebuilt from the WAL. Re-bootstrap the table (or restore the row)")

/-- An upsert row's key cells; they are text by construction. -/
def rowKeyRefs (keyIdx : List Nat) (cells : List Cell) : Key :=
  keyIdx.map fun i => (textAt cells i).getD []

namespace DestPg

/-- What one residue cell binds as. -/
def bindOf : Cell → Cell
  | .null => .null
  | .unchangedToast => .null
  | .text t => .text t

/-- One COPY line of the bulk path. -/
def renderCopyRow (row : Tuple) : Except Error (List Cell) :=
  if row.hasToast then
    .error (.transfer "log_based: unchanged-TOAST cell reached the bulk path — collapse bug")
  else .ok row.toCells

/-- `DELETE FROM t USING keys`. -/
def deleteKeys (keys : List Key) (T : Table) : Table := fun k => if k ∈ keys then none else T k

/-- One row of a plain `INSERT`. -/
def insertRow (l : Layout) (T : Table) (row : List Cell) : Except Error Table :=
  match l.keyTexts row with
  | none => .error (dbErr "null value in a primary key column")
  | some k =>
      if T k = none then .ok (Function.update T k (some row))
      else .error (dbErr "duplicate key value violates unique constraint")

/-- The columns a masked update and a conflicting insert leave alone. -/
def isPk (l : Layout) (c : String) : Bool := l.keyCols.contains c

/-- The `SET` list of an update: the shipped columns, less those `skip` names. -/
def setList (skip : String → Bool) (cols : List String) (row : List Cell) :
    List (String × Cell) :=
  ((cols.zip row).filter fun p => p.2 ≠ .unchangedToast ∧ skip p.1 = false).map
    fun p => (p.1, bindOf p.2)

/-- A row after a `SET` list: a column it does not name keeps its value. -/
def assign (cols : List String) (sets : List (String × Cell)) (cur : List Cell) : List Cell :=
  cols.zipIdx.map fun p => (sets.lookup p.1).getD (cur.getD p.2 .null)

/-- Where the row at `key` is after a `SET` list. -/
def keyAfter (keyCols : List String) (sets : List (String × Cell)) (key : Key) : Option Key :=
  keyCols.zipIdx.mapM fun p => match sets.lookup p.1 with
    | none => key[p.2]?
    | some (Cell.text t) => some t
    | some _ => none

/-- `UPDATE t SET sets WHERE pk = key`, with the number of rows it matched. -/
def updateWhere (l : Layout) (key : Key) (sets : List (String × Cell)) (T : Table) :
    Except Error (Nat × Table) :=
  match T key with
  | none => .ok (0, T)
  | some cur =>
      match keyAfter l.keyCols sets key with
      | none => .error (dbErr "null value in a primary key column")
      | some k =>
          if k ≠ key ∧ T k ≠ none then
            .error (dbErr "duplicate key value violates unique constraint")
          else .ok (1, Function.update (Function.update T key none) k
            (some (assign l.cols sets cur)))

/-- `INSERT .. ON CONFLICT (pk) DO UPDATE SET` every other column. -/
def upsertRow (l : Layout) (row : List Cell) (T : Table) : Except Error Table :=
  let vals := row.map bindOf
  match l.keyTexts vals with
  | none => .error (dbErr "null value in a primary key column")
  | some k =>
      match T k with
      | none => .ok (Function.update T k (some vals))
      | some cur =>
          let updates := setList (isPk l) l.cols vals
          if updates.isEmpty then .ok T
          else .ok (Function.update T k (some (assign l.cols updates cur)))

/-- One residue op. A masked update must find its row and a move its new key,
unless a later op of the window takes the row from there anyway (`moot`). -/
def applyOp (l : Layout) (destTable : String) (moot : Bool) :
    ResidueOp → Table → Except Error Table
  | .maskedUpdate key row, T =>
      let sets := setList (isPk l) l.cols row
      if sets.isEmpty then .ok T
      else (updateWhere l key sets T).bind fun (n, T') =>
        if n = 0 ∧ moot = false then .error (missingRow destTable "masked" key) else .ok T'
  | .upsert row, T => upsertRow l row T
  | .delete key, T => .ok (Function.update T key none)
  | .rekey oldKey newKey row, T =>
      let sets := setList (fun _ => false) l.cols row
      if sets.isEmpty then .ok T
      else (updateWhere l oldKey sets T).bind fun (n, T') =>
        if n = 0 ∧ moot = false ∧ T' newKey = none then
          .error (missingRow destTable "move" newKey)
        else .ok T'

/-- The residue tail, serial and ordered. -/
def applyResidue (l : Layout) (destTable : String) :
    List (ResidueOp × Bool) → Table → Except Error Table
  | [], T => .ok T
  | (op, moot) :: ops, T => (applyOp l destTable moot op T).bind (applyResidue l destTable ops)

/-- One table's part of a window, with the events it reports. -/
def applyUnit (destTable : String) (w : Option (TableWindow Collapsed)) (T : Table) :
    Except Error (Nat × Table) :=
  match w with
  | none => .ok (0, T)
  | some w => do
      let c := w.body
      let l := w.layout
      let T := if c.truncate then fun _ => none else T
      let T := deleteKeys
        (c.deletes ++ c.upserts.map fun row => rowKeyRefs l.keyIdx row.toCells) T
      let rows ← c.upserts.mapM renderCopyRow
      let T ← rows.foldlM (insertRow l) T
      let T ← applyResidue l destTable (c.residue.zip (deletedLater c.residue).1) T
      return (c.events, T)

section assign

theorem bindOf_of_shipped {c : Cell} (shipped : c ≠ .unchangedToast) : bindOf c = c := by
  cases c with
  | unchangedToast => exact absurd rfl shipped
  | null => rfl
  | text t => rfl

theorem map_bindOf_of_whole {cells : List Cell} (whole : .unchangedToast ∉ cells) :
    cells.map bindOf = cells := by
  induction cells with
  | nil => rfl
  | cons c cells ih =>
      simp only [List.mem_cons, not_or] at whole
      rw [List.map_cons, bindOf_of_shipped (Ne.symm whole.1), ih whole.2]

theorem setList_cons (skip : String → Bool) (name : String) (cols : List String) (c : Cell)
    (row : List Cell) :
    setList skip (name :: cols) (c :: row) =
      if c ≠ .unchangedToast ∧ skip name = false then (name, c) :: setList skip cols row
      else setList skip cols row := by
  by_cases shipped : c ≠ .unchangedToast ∧ skip name = false
  · simp [setList, shipped, bindOf_of_shipped shipped.1]
  · simp [setList, shipped]

theorem lookup_setList_of_notMem {skip : String → Bool} {cols : List String} {row : List Cell}
    {name : String} (absent : name ∉ cols) :
    (setList skip cols row).lookup name = none := by
  induction cols generalizing row with
  | nil => rfl
  | cons first cols ih =>
      simp only [List.mem_cons, not_or] at absent
      cases row with
      | nil => rfl
      | cons c row =>
          rw [setList_cons]
          split
          · rw [List.lookup_cons, beq_false_of_ne absent.1]
            exact ih absent.2
          · exact ih absent.2

/-- Naming a column and pointing at it are the same thing: names are distinct. -/
theorem lookup_setList {skip : String → Bool} {cols : List String} {row : List Cell}
    (distinct : cols.Nodup) {i : Nat} {name : String} {c : Cell} (col : cols[i]? = some name)
    (cell : row[i]? = some c) :
    (setList skip cols row).lookup name =
      if c ≠ .unchangedToast ∧ skip name = false then some c else none := by
  induction cols generalizing row i with
  | nil => simp at col
  | cons first cols ih =>
      obtain ⟨absent, rest⟩ := List.nodup_cons.mp distinct
      cases row with
      | nil => simp at cell
      | cons b row =>
          rw [setList_cons]
          cases i with
          | zero =>
              simp only [List.getElem?_cons_zero, Option.some.injEq] at col cell
              subst col cell
              split
              · rw [List.lookup_cons, beq_self_eq_true]
              · exact lookup_setList_of_notMem absent
          | succ i =>
              simp only [List.getElem?_cons_succ] at col cell
              have ne : name ≠ first := by
                rintro rfl
                exact absent (List.mem_of_getElem? col)
              split
              · rw [List.lookup_cons, beq_false_of_ne ne]
                exact ih rest col cell
              · exact ih rest col cell

@[simp] theorem length_assign (cols : List String) (sets : List (String × Cell))
    (cur : List Cell) : (assign cols sets cur).length = cols.length := by
  simp [assign]

theorem getElem?_assign {cols : List String} {sets : List (String × Cell)} {cur : List Cell}
    {i : Nat} {name : String} (col : cols[i]? = some name) :
    (assign cols sets cur)[i]? = some ((sets.lookup name).getD (cur.getD i .null)) := by
  simp [assign, col]

/-- Setting the shipped columns keeps the row's other cells, provided a skipped
column already has the value that was shipped for it. -/
theorem assign_setList {skip : String → Bool} {cols : List String} {row cur : List Cell}
    (distinct : cols.Nodup) (width : row.length = cols.length) (width' : cur.length = cols.length)
    (skipped : ∀ (i : Nat) (name : String), cols[i]? = some name → skip name = true →
      row[i]? = cur[i]?) :
    assign cols (setList skip cols row) cur = patch row cur := by
  apply List.ext_getElem?
  intro i
  by_cases inside : i < cols.length
  · have col : cols[i]? = some cols[i] := List.getElem?_eq_getElem inside
    have cell : row[i]? = some row[i] := List.getElem?_eq_getElem (width ▸ inside)
    have held : cur[i]? = some cur[i] := List.getElem?_eq_getElem (width' ▸ inside)
    rw [getElem?_assign col, lookup_setList distinct col cell, getElem?_patch, cell, held]
    by_cases hole : row[i] = .unchangedToast
    · simp [hole, List.getD, held]
    · by_cases skip_i : skip cols[i] = true
      · have same := skipped i _ col skip_i
        rw [cell, held, Option.some.injEq] at same
        simp [hole, skip_i, List.getD, held, ← same]
      · simp [hole, skip_i]
  · have outside : cols.length ≤ i := Nat.le_of_not_lt inside
    rw [List.getElem?_eq_none (by simpa using outside),
      List.getElem?_eq_none (by simpa [width] using outside)]

/-- An empty `SET` list leaves nothing to change. -/
theorem patch_of_setList_nil {skip : String → Bool} {cols : List String} {row cur : List Cell}
    (distinct : cols.Nodup) (width : row.length = cols.length) (width' : cur.length = cols.length)
    (skipped : ∀ (i : Nat) (name : String), cols[i]? = some name → skip name = true →
      row[i]? = cur[i]?) (nothing : (setList skip cols row).isEmpty = true) :
    patch row cur = cur := by
  rw [← assign_setList distinct width width' skipped, List.isEmpty_iff.mp nothing]
  apply List.ext_getElem?
  intro i
  by_cases inside : i < cols.length
  · have held : cur[i]? = some cur[i] := List.getElem?_eq_getElem (width' ▸ inside)
    rw [getElem?_assign (List.getElem?_eq_getElem inside), held]
    simp [List.getD, held]
  · have outside : cols.length ≤ i := Nat.le_of_not_lt inside
    rw [List.getElem?_eq_none (by simpa using outside),
      List.getElem?_eq_none (by simpa [width'] using outside)]

end assign

section ops

variable {l : Layout} {T : Table} {k : Key} {row cur : List Cell}

theorem lookup_setList_of_skip {skip : String → Bool} {cols : List String} {row : List Cell}
    {name : String} (skipped : skip name = true) :
    (setList skip cols row).lookup name = none := by
  induction cols generalizing row with
  | nil => rfl
  | cons first cols ih =>
      cases row with
      | nil => rfl
      | cons c row =>
          rw [setList_cons]
          split
          · rename_i named
            have ne : name ≠ first := by
              rintro rfl
              exact absurd named.2 (by simp [skipped])
            rw [List.lookup_cons, beq_false_of_ne ne]
            exact ih
          · exact ih

/-- An update that names no key column leaves the row at its key. -/
theorem keyAfter_masked {cols : List String} {row : List Cell}
    (width : k.length = l.keyCols.length) :
    keyAfter l.keyCols (setList (isPk l) cols row) k = some k := by
  rw [keyAfter, mapM_eq_some_iff, List.forall₂_iff_get]
  refine ⟨by simp [width], fun i inside inside' => ?_⟩
  have in_cols : i < l.keyCols.length := by simpa using inside
  have named : isPk l l.keyCols[i] = true := by simp [isPk]
  have unset : (setList (isPk l) cols row).lookup l.keyCols[i] = none :=
    lookup_setList_of_skip named
  simp [unset, List.getElem?_eq_getElem inside']

/-- An update that names every key column moves the row to the key it carries. -/
theorem keyAfter_moved {old : Key} (key : l.keyTexts row = some k) :
    keyAfter l.keyCols (setList (fun _ => false) l.cols row) old = some k := by
  have texts := Layout.keyTexts_eq_some_iff.mp key
  have spec := l.keyIdx_spec
  rw [keyAfter, mapM_eq_some_iff, List.forall₂_iff_get]
  refine ⟨by simp [spec.length_eq, texts.length_eq], fun j inside inside' => ?_⟩
  have in_cols : j < l.keyCols.length := by simpa using inside
  have in_idx : j < l.keyIdx.length := spec.length_eq ▸ in_cols
  have col : l.cols[l.keyIdx.get ⟨j, in_idx⟩]? = some (l.keyCols.get ⟨j, in_cols⟩) :=
    spec.get in_cols in_idx
  have cell : row[l.keyIdx.get ⟨j, in_idx⟩]? = some (.text (k.get ⟨j, inside'⟩)) :=
    texts.get in_idx inside'
  have named : (setList (fun _ => false) l.cols row).lookup _ = _ :=
    lookup_setList l.cols_nodup col cell
  simp only [List.get_eq_getElem, List.getElem_zipIdx, Nat.zero_add] at named ⊢
  rw [named]
  simp

theorem length_key (key : l.keyTexts row = some k) : k.length = l.keyCols.length := by
  have texts := Layout.keyTexts_eq_some_iff.mp key
  rw [← texts.length_eq, l.keyIdx_spec.length_eq]

/-- Two rows under one key have the same key columns, so an update may skip them. -/
theorem skipped_agree (key : l.keyTexts row = some k) (key' : l.keyTexts cur = some k) (i : Nat)
    (name : String) (col : l.cols[i]? = some name) (skipped : isPk l name = true) :
    row[i]? = cur[i]? := by
  have named : name ∈ l.keyCols := by simpa [isPk] using skipped
  exact Layout.agree_of_keyTexts key key' ((l.mem_keyIdx_iff col).mpr named)

/-- A masked update on the row it is about. -/
theorem applyOp_maskedUpdate {destTable : String} {moot : Bool}
    (fits : (ResidueOp.maskedUpdate k row).Fits l) (isRow : l.IsRow k cur) (held : T k = some cur) :
    applyOp l destTable moot (.maskedUpdate k row) T =
      .ok (Function.update T k (some (patch row cur))) := by
  have skipped := skipped_agree fits.2 isRow.key
  simp only [applyOp]
  split
  · rename_i nothing
    rw [patch_of_setList_nil l.cols_nodup fits.1 isRow.width skipped nothing, ← held,
      Function.update_eq_self]
  · simp only [updateWhere, held, keyAfter_masked (length_key fits.2), ne_eq, not_true_eq_false,
      false_and, if_false, Except.bind, Nat.one_ne_zero, Function.update_idem,
      assign_setList l.cols_nodup fits.1 isRow.width skipped]

/-- An upsert leaves the shipped row, whatever the key held. -/
theorem applyOp_upsert {destTable : String} {moot : Bool} (isRow : l.IsRow k row)
    (keyed : ∀ cur, T k = some cur → l.IsRow k cur) :
    applyOp l destTable moot (.upsert row) T = .ok (Function.update T k (some row)) := by
  simp only [applyOp, upsertRow, map_bindOf_of_whole isRow.whole, isRow.key]
  cases held : T k with
  | none => rfl
  | some cur =>
      have isRow' := keyed cur held
      have skipped := skipped_agree isRow.key isRow'.key
      have new := patch_of_whole cur isRow.whole
      simp only
      split
      · rename_i nothing
        have same := patch_of_setList_nil l.cols_nodup isRow.width isRow'.width skipped nothing
        rw [← new, same, ← held, Function.update_eq_self]
      · rw [assign_setList l.cols_nodup isRow.width isRow'.width skipped, new]

/-- A move of the row it is about, onto a free key. -/
theorem applyOp_rekey {destTable : String} {moot : Bool} {old : Key}
    (fits : (ResidueOp.rekey old k row).Fits l) (isRow : l.IsRow old cur)
    (held : T old = some cur) (free : T k = none) :
    applyOp l destTable moot (.rekey old k row) T =
      .ok (Function.update (Function.update T old none) k (some (patch row cur))) := by
  have noneSkipped : ∀ (i : Nat) (name : String), l.cols[i]? = some name → false = true →
      row[i]? = cur[i]? := fun _ _ _ skipped => nomatch skipped
  have assigned := assign_setList l.cols_nodup fits.1 isRow.width noneSkipped
  have ne : k ≠ old := by
    rintro rfl
    rw [free] at held
    cases held
  simp only [applyOp]
  split
  · rename_i nothing
    have unmoved := patch_of_setList_nil l.cols_nodup fits.1 isRow.width noneSkipped nothing
    have key := Layout.keyTexts_patch fits.2 cur
    rw [unmoved, isRow.key, Option.some.injEq] at key
    exact absurd key.symm ne
  · simp only [updateWhere, held, keyAfter_moved fits.2, free, not_true_eq_false, and_false,
      if_false, Except.bind, Nat.one_ne_zero, false_and, assigned, ne_eq]

end ops

section refinement

variable {l : Layout} {destTable : String}

/-- The statement an op becomes does what the op means, on a keyed table. -/
theorem applyOp_of_step {op : ResidueOp} {T T' : Table} (fits : op.Fits l) (keyed : T.Keyed l)
    (means : op.step l T = .ok T') (moot : Bool) :
    applyOp l destTable moot op T = .ok T' := by
  cases op with
  | maskedUpdate key row =>
      simp only [ResidueOp.step] at means
      split at means
      · rename_i cur held
        cases means
        exact applyOp_maskedUpdate fits (keyed key cur held) held
      · cases means
  | upsert row =>
      obtain ⟨k, isRow⟩ := fits
      rw [ResidueOp.step_upsert isRow.key] at means
      cases means
      exact applyOp_upsert isRow (keyed k)
  | delete key =>
      cases means
      rfl
  | rekey oldKey newKey row =>
      simp only [ResidueOp.step] at means
      split at means
      · rename_i cur held free
        cases means
        exact applyOp_rekey fits (keyed oldKey cur held) held free
      · cases means

/-- The serial tail does what its ops mean, one after another. -/
theorem applyResidue_of_runOps {ops : List (ResidueOp × Bool)} {T T' : Table}
    (fits : ∀ op ∈ ops, op.1.Fits l) (keyed : T.Keyed l)
    (means : runOps (ResidueOp.step l) (ops.map Prod.fst) T = .ok T') :
    applyResidue l destTable ops T = .ok T' := by
  induction ops generalizing T with
  | nil => exact congrArg _ (Except.ok.inj means)
  | cons op ops ih =>
      simp only [List.map_cons, runOps_cons] at means
      cases ran : op.1.step l T with
      | error e => simp [ran, Except.bind] at means
      | ok T₁ =>
          simp only [ran, Except.bind] at means
          have fits_op := fits op (.head _)
          simp only [applyResidue, applyOp_of_step fits_op keyed ran, Except.bind]
          exact ih (fun op' mem => fits op' (.tail _ mem)) (ResidueOp.keyed_step fits_op keyed ran)
            means

end refinement

end DestPg

end Apitap
