import Apitap.Wire.Pgoutput
import Mathlib.Data.List.Forall2

/-!
# Column layouts and sealed windows

A layout is the one place that says where a row's key is: the run's key columns,
found by name among the columns the source ships. `Layout` carries the facts its
constructor establishes, so no apply re-checks them, and a `TableWindow` can only
be built by `seal`, whose rows all have the layout's width.
-/

namespace Apitap

/-- What a relation's old images carry. -/
inductive ReplicaIdentity where
  | default
  | nothing
  | full
  | index
deriving DecidableEq, Repr

structure RelationCol where
  /-- Part of the replica-identity key. -/
  key : Bool
  name : String
  typeOid : Nat
  typeMod : Int
deriving DecidableEq, Repr

/-- A Relation message. The server never gives two columns of one table the
same name, which is all `names` says. -/
structure Relation where
  relId : Nat
  namespaceName : String
  name : String
  replicaIdentity : ReplicaIdentity
  cols : List RelationCol
  names : (cols.map RelationCol.name).Nodup
deriving DecidableEq, Repr

/-- One table's columns as the source ships its rows: names and type OIDs in
row order, and the run's key columns with their positions in that order. -/
structure Layout where
  cols : List String
  oids : List Nat
  keyCols : List String
  keyIdx : List Nat
  cols_nodup : cols.Nodup
  keyIdx_spec : List.Forall₂ (fun k i => cols[i]? = some k) keyCols keyIdx
deriving DecidableEq, Repr

/-- Each key column's position among `cols`, in `keys` order; `missing` names
the first one that is not there. -/
def keyPositions (cols : List String) (missing : String → Error) :
    List String → Except Error (List Nat)
  | [] => .ok []
  | k :: keys =>
      match cols.idxOf? k with
      | none => .error (missing k)
      | some i => (keyPositions cols missing keys).map (i :: ·)

theorem getElem?_of_idxOf? {cols : List String} {k : String} {i : Nat}
    (h : cols.idxOf? k = some i) : cols[i]? = some k := by
  rw [List.idxOf?, List.findIdx?_eq_some_iff_getElem] at h
  obtain ⟨hi, hk, _⟩ := h
  rw [List.getElem?_eq_getElem hi, beq_iff_eq.mp hk]

theorem keyPositions_spec {cols : List String} {missing : String → Error} {keys : List String}
    {idx : List Nat} (h : keyPositions cols missing keys = .ok idx) :
    List.Forall₂ (fun k i => cols[i]? = some k) keys idx := by
  induction keys generalizing idx with
  | nil =>
      cases h
      exact .nil
  | cons k keys ih =>
      simp only [keyPositions] at h
      cases hk : cols.idxOf? k with
      | none => simp [hk] at h
      | some i =>
          rw [hk] at h
          cases hrest : keyPositions cols missing keys with
          | error e => simp [hrest, Except.map] at h
          | ok rest =>
              simp only [hrest, Except.map, Except.ok.injEq] at h
              subst h
              exact .cons (getElem?_of_idxOf? hk) (ih hrest)

namespace Layout

/-- A pgoutput Relation. `ok none` is a relation this run does not track. The
key is found by name from the run's key list, never from the key flags: under
REPLICA IDENTITY FULL the WAL flags every column. Under DEFAULT or USING INDEX
an old image carries only the flagged columns, so the key must be among them. -/
def fromRelation (r : Relation) (keyCols : String → Option (List String)) :
    Except Error (Option Layout) :=
  let table := s!"{r.namespaceName}.{r.name}"
  match keyCols table with
  | none => .ok none
  | some want =>
      if r.replicaIdentity = .nothing then
        .error (.invalidInput
          (s!"log_based: table {table} has REPLICA IDENTITY NOTHING — updates and " ++
            s!"deletes carry no key. Run: ALTER TABLE {table} REPLICA IDENTITY " ++
            "DEFAULT (with a primary key) or FULL"))
      else
        let cols := r.cols.map RelationCol.name
        match h : keyPositions cols
            (fun k => .transfer s!"log_based: key column '{k}' not in WAL relation for {table}")
            want with
        | .error e => .error e
        | .ok keyIdx =>
            match keyIdx.find? (fun i => r.replicaIdentity ≠ .full ∧
                (r.cols[i]?.map RelationCol.key) = some false) with
            | some i =>
                let column := cols.getD i default
                .error (.invalidInput
                  (s!"log_based: key column '{column}' of {table} is not part of the " ++
                    "source's REPLICA IDENTITY — old images won't carry it. " ++
                    s!"Use the source PK as the key, or ALTER TABLE {table} " ++
                    "REPLICA IDENTITY FULL"))
            | none =>
                .ok (some
                  { cols := cols
                    oids := r.cols.map RelationCol.typeOid
                    keyCols := want
                    keyIdx := keyIdx
                    cols_nodup := r.names
                    keyIdx_spec := keyPositions_spec h })

/-- A key position holds a key column. -/
theorem name_of_mem_keyIdx (l : Layout) {i : Nat} (h : i ∈ l.keyIdx) :
    ∃ k ∈ l.keyCols, l.cols[i]? = some k := by
  obtain ⟨j, hj, rfl⟩ := List.getElem_of_mem h
  have hj' : j < l.keyCols.length := l.keyIdx_spec.length_eq ▸ hj
  refine ⟨l.keyCols[j], List.getElem_mem _, ?_⟩
  exact l.keyIdx_spec.get hj' hj

/-- A column carrying a key column's name sits at a key position: column names
are distinct, so naming a column and pointing at it are the same thing. -/
theorem mem_keyIdx_iff (l : Layout) {i : Nat} {c : String} (hc : l.cols[i]? = some c) :
    i ∈ l.keyIdx ↔ c ∈ l.keyCols := by
  constructor
  · intro hi
    obtain ⟨k, hk, hik⟩ := l.name_of_mem_keyIdx hi
    rw [hc] at hik
    exact Option.some.inj hik ▸ hk
  · intro hk
    obtain ⟨j, hj, rfl⟩ := List.getElem_of_mem hk
    have spec := l.keyIdx_spec
    have hj' : j < l.keyIdx.length := spec.length_eq ▸ hj
    have hat : l.cols[l.keyIdx[j]]? = some l.keyCols[j] := spec.get hj hj'
    obtain ⟨hi, hci⟩ := List.getElem?_eq_some_iff.mp hc
    obtain ⟨hm, hcm⟩ := List.getElem?_eq_some_iff.mp hat
    have same : i = l.keyIdx[j] := (List.Nodup.getElem_inj_iff l.cols_nodup).mp (hci.trans hcm.symm)
    rw [same]
    exact List.getElem_mem _

/-- Every key position is a column of the layout. -/
theorem lt_of_mem_keyIdx (l : Layout) {i : Nat} (h : i ∈ l.keyIdx) : i < l.cols.length := by
  obtain ⟨k, _, hk⟩ := l.name_of_mem_keyIdx h
  exact (List.getElem?_eq_some_iff.mp hk).1

end Layout

/-- A body a window can carry: its rows must fit the window's layout. -/
class WindowBody (β : Type) where
  /-- `error len` names the first row that does not fit `ncols` columns. -/
  rowsFit : β → Nat → Except Nat Unit
  /-- Source events the body consumed, for reporting. -/
  eventCount : β → Nat

/-- One table's window: its body and the layout its rows are in. -/
structure TableWindow (β : Type) [WindowBody β] where
  layout : Layout
  body : β
  fits : WindowBody.rowsFit body layout.cols.length = .ok ()

/-- The window's rows must all be in `layout`'s shape. -/
def TableWindow.seal {β : Type} [WindowBody β] (table : String) (layout : Layout) (body : β) :
    Except Error (TableWindow β) :=
  let n := layout.cols.length
  match h : WindowBody.rowsFit body n with
  | .error got =>
      .error (.transfer
        (s!"log_based: {table}: a row in this window has {got} columns but the window's " ++
          s!"layout has {n} — the table's definition changed inside one source transaction. " ++
          "Clear this table's apitap state on the destination and re-run to bootstrap it " ++
          "from its current schema."))
  | .ok () => .ok ⟨layout, body, h⟩

theorem TableWindow.seal_ok {β : Type} [WindowBody β] {table : String} {layout : Layout} {body : β}
    (h : WindowBody.rowsFit body layout.cols.length = .ok ()) :
    TableWindow.seal table layout body = .ok ⟨layout, body, h⟩ := by
  unfold TableWindow.seal
  dsimp only
  split
  · rename_i got hgot
    rw [h] at hgot
    exact absurd hgot (by simp)
  · rfl

end Apitap
