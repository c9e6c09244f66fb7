import Apitap.Foundation.Overlay
import Apitap.Logbased.Source

/-!
# What the residue tail means

Stated once for every destination: an op of the tail reads and writes the rows
at the keys it names, and a masked update or a move has to find its row. A
window is the overlay of a table by its deletes, its upserts and its tail; this
is the meaning that each destination's apply is compared with.
-/

namespace Apitap

open Foundation

/-- Every row is whole and filed under its own key. -/
def Table.Keyed (l : Layout) (T : Table) : Prop := ∀ k r, T k = some r → l.IsRow k r

section keyed

variable {l : Layout} {T : Table}

theorem Table.Keyed.put (keyed : T.Keyed l) {k : Key} {r : List Cell} (row : l.IsRow k r) :
    Table.Keyed l (Function.update T k (some r)) := by
  intro j r' held
  by_cases at_k : j = k
  · subst at_k
    rw [Function.update_self] at held
    exact Option.some.inj held ▸ row
  · rw [Function.update_of_ne at_k] at held
    exact keyed j r' held

theorem Table.Keyed.erase (keyed : T.Keyed l) (k : Key) :
    Table.Keyed l (Function.update T k none) := by
  intro j r' held
  by_cases at_k : j = k
  · subst at_k
    rw [Function.update_self] at held
    cases held
  · rw [Function.update_of_ne at_k] at held
    exact keyed j r' held

end keyed

namespace ResidueOp

/-- The image an op carries is in the layout's shape, under the key it names. -/
def Fits (l : Layout) : ResidueOp → Prop
  | maskedUpdate key row => row.length = l.cols.length ∧ l.keyTexts row = some key
  | upsert row => ∃ k, l.IsRow k row
  | delete _ => True
  | rekey _ newKey row => row.length = l.cols.length ∧ l.keyTexts row = some newKey

/-- The keys an op reads or writes. -/
def keys (l : Layout) : ResidueOp → Set Key
  | maskedUpdate key _ => {key}
  | upsert row => {k | l.keyTexts row = some k}
  | delete key => {key}
  | rekey oldKey newKey _ => {oldKey, newKey}

theorem keys_upsert {l : Layout} {row : List Cell} {k : Key} (key : l.keyTexts row = some k) :
    {k} = keys l (upsert row) := by
  ext j
  simp [keys, key, eq_comm]

/-- What an op does to a table; an error where it does not find its row, or
finds another one in its way. -/
def step (l : Layout) : ResidueOp → Table → Except Unit Table
  | maskedUpdate key row, T =>
      match T key with
      | some cur => .ok (Function.update T key (some (patch row cur)))
      | none => .error ()
  | upsert row, T =>
      match l.keyTexts row with
      | some k => .ok (Function.update T k (some row))
      | none => .error ()
  | delete key, T => .ok (Function.update T key none)
  | rekey oldKey newKey row, T =>
      match T oldKey, T newKey with
      | some cur, none =>
          .ok (Function.update (Function.update T oldKey none) newKey (some (patch row cur)))
      | _, _ => .error ()

section step

variable {l : Layout} {k : Key} {row cur : List Cell} {T : Table}

theorem step_maskedUpdate (held : T k = some cur) :
    step l (maskedUpdate k row) T = .ok (Function.update T k (some (patch row cur))) := by
  simp only [step, held]

theorem step_upsert (key : l.keyTexts row = some k) :
    step l (upsert row) T = .ok (Function.update T k (some row)) := by
  simp only [step, key]

theorem step_rekey {j : Key} (held : T j = some cur) (free : T k = none) :
    step l (rekey j k row) T =
      .ok (Function.update (Function.update T j none) k (some (patch row cur))) := by
  simp only [step, held, free]

/-- An op reads and writes the keys it names only. -/
theorem confined_step (l : Layout) (op : ResidueOp) : Confined (op.keys l) (step l op) := by
  intro T U same
  cases op with
  | maskedUpdate key row =>
      have own : key ∈ keys l (maskedUpdate key row) := Set.mem_singleton key
      have at_key : U key = T key := (same own).symm
      simp only [step, at_key]
      cases T key with
      | none => rfl
      | some cur => simp only [Except.map, piecewise_update same own]
  | upsert row =>
      simp only [step]
      cases key : l.keyTexts row with
      | none => rfl
      | some k =>
          have own : k ∈ keys l (upsert row) := key
          simp only [Except.map, piecewise_update same own]
  | delete key =>
      have own : key ∈ keys l (delete key) := Set.mem_singleton key
      simp only [step, Except.map, piecewise_update same own]
  | rekey oldKey newKey row =>
      have at_old : U oldKey = T oldKey := (same (Set.mem_insert ..)).symm
      have at_new : U newKey = T newKey := (same (Set.mem_insert_of_mem _ rfl)).symm
      simp only [step, at_old, at_new]
      cases T oldKey with
      | none => rfl
      | some cur =>
          cases T newKey with
          | some other => rfl
          | none =>
              simp only [Except.map, Except.ok.injEq]
              refine (piecewise_update_of (eqOn_update same oldKey none) ?_
                (Set.mem_insert_of_mem _ rfl) _).symm
              intro j outside
              rw [Function.update_of_ne]
              rintro rfl
              exact outside (Set.mem_insert ..)

/-- A tail op that fits keeps every row filed under its own key. -/
theorem keyed_step {op : ResidueOp} {T' : Table} (fits : op.Fits l) (keyed : T.Keyed l)
    (ran : step l op T = .ok T') : T'.Keyed l := by
  cases op with
  | maskedUpdate key row =>
      simp only [step] at ran
      split at ran
      · rename_i cur held
        cases ran
        exact keyed.put (Layout.isRow_patch fits.1 fits.2 (keyed key cur held))
      · cases ran
  | upsert row =>
      obtain ⟨k, isRow⟩ := fits
      rw [step_upsert isRow.key] at ran
      cases ran
      exact keyed.put isRow
  | delete key =>
      cases ran
      exact keyed.erase key
  | rekey oldKey newKey row =>
      simp only [step] at ran
      split at ran
      · rename_i cur held free
        cases ran
        exact (keyed.erase oldKey).put (Layout.isRow_patch fits.1 fits.2 (keyed oldKey cur held))
      · cases ran

end step

end ResidueOp

end Apitap
