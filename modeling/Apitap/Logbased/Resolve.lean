import Apitap.Logbased.CollapseMeaning

/-!
# One image per key

A destination that applies a window as one image per key folds the residue tail
over the set-phase upserts first. A hole the window itself cannot fill survives
in the image, together with the key at which the destination still holds the
row the hole belongs to: the first one of a chain of moves.

The fold runs in step with the tail: after each op, every entry says what the
table holds at its key by then, and a surviving hole reads from the table as it
was before the window.
-/

namespace Apitap

open Foundation

/-- One key's final state after replaying the tail over the upserts. -/
inductive FinState where
  /-- Complete row image, as the window carries it. -/
  | row (cells : List Cell)
  /-- Complete row image, its holes patched from an in-window base. -/
  | owned (cells : List Cell)
  /-- Still holds unchanged-TOAST cells. `movedFrom` is the key the row lived at
  before a key-changing update moved it, the first one of a chain. -/
  | masked (cells : List Cell) (movedFrom : Option Key)
  | gone
deriving DecidableEq, Repr

/-- What a set-image apply writes for one key. -/
inductive Image where
  | row (cells : List Cell)
  | masked (cells : List Cell) (movedFrom : Option Key)
  /-- The key's pre-window row goes, and nothing replaces it. -/
  | delete
deriving DecidableEq, Repr

def FinState.image : FinState → Image
  | row cells => .row cells
  | owned cells => .row cells
  | masked cells movedFrom => .masked cells movedFrom
  | gone => .delete

/-- A window folded to one entry per key. -/
structure Resolved where
  /-- Every key an upsert or the tail touched, in first-touch order. -/
  finals : List (Key × FinState)
  /-- The deleted keys `finals` does not hold. -/
  deleteOnly : List Key
deriving DecidableEq, Repr

/-- `finals` in order, then `deleteOnly`. -/
def Resolved.rows (r : Resolved) : List (Key × Image) :=
  r.finals.map (fun e => (e.1, e.2.image)) ++ r.deleteOnly.map fun key => (key, .delete)

namespace Resolved

/-- A key's entry is overwritten where it stands; a new one goes last. -/
def put : List (Key × FinState) → Key → FinState → List (Key × FinState)
  | [], key, fin => [(key, fin)]
  | (k, f) :: order, key, fin =>
      if key = k then (k, fin) :: order else (k, f) :: put order key fin

/-- The image a residue op patches its holes from, and the key the row came
from if that image is itself a moved row's. -/
def baseOf (order : List (Key × FinState)) (key : Key) : Option (List Cell) × Option Key :=
  match order.lookup key with
  | some (.row b) => (some b, none)
  | some (.owned b) => (some b, none)
  | some (.masked row movedFrom) => (some row, movedFrom)
  | some .gone => (none, none)
  | none => (none, none)

def patchFin (row : List Cell) (base : Option (List Cell)) (movedFrom : Option Key) : FinState :=
  let patched := match base with
    | some b => patch row b
    | none => row
  if .unchangedToast ∈ patched then .masked patched movedFrom else .owned patched

def foldOp (keyIdx : List Nat) (order : List (Key × FinState)) :
    ResidueOp → List (Key × FinState)
  | .upsert row => put order (rowKeyRefs keyIdx row) (.row row)
  | .delete key => put order key .gone
  -- The row is at its own key, unless the window moved it there.
  | .maskedUpdate key row =>
      let (base, origin) := baseOf order key
      put order key (patchFin row base origin)
  | .rekey oldKey newKey row =>
      let (base, origin) := baseOf order oldKey
      put (put order oldKey .gone) newKey (patchFin row base (some (origin.getD oldKey)))

/-- The set-phase upserts, before the tail. -/
def start (keyIdx : List Nat) (upserts : List Tuple) : List (Key × FinState) :=
  upserts.foldl (fun order row => put order (rowKeyRefs keyIdx row.toCells) (.owned row.toCells)) []

/-- Fold a collapsed window into one entry per key. -/
def resolveWindow (w : TableWindow Collapsed) : Resolved :=
  let c := w.body
  let keyIdx := w.layout.keyIdx
  let order := c.residue.foldl (foldOp keyIdx) (start keyIdx c.upserts)
  -- A TRUNCATE window has nothing old to delete.
  let deleteOnly := if c.truncate then [] else c.deletes.filter fun k => (order.lookup k).isNone
  ⟨order, deleteOnly⟩

section put

variable {order : List (Key × FinState)} {key j : Key} {fin : FinState}

theorem lookup_cons_ite {ν : Type} (k j : Key) (f : ν) (order : List (Key × ν)) :
    ((k, f) :: order).lookup j = if j = k then some f else order.lookup j := by
  by_cases same : j = k
  · rw [same, List.lookup_cons_self, if_pos rfl]
  · rw [List.lookup_cons, beq_false_of_ne same, if_neg same]

theorem lookup_put (order : List (Key × FinState)) (key j : Key) (fin : FinState) :
    (put order key fin).lookup j = if j = key then some fin else order.lookup j := by
  induction order with
  | nil => rw [put, lookup_cons_ite]
  | cons e order ih =>
      obtain ⟨k, f⟩ := e
      by_cases at_k : key = k
      · subst at_k
        simp only [put, if_true, lookup_cons_ite]
        split <;> rfl
      · simp only [put, at_k, if_false, lookup_cons_ite, ih]
        by_cases same : j = key
        · simp [same, at_k]
        · simp [same]

theorem mem_keys_iff {ν : Type} {order : List (Key × ν)} :
    j ∈ order.map Prod.fst ↔ order.lookup j ≠ none := by
  induction order with
  | nil => simp
  | cons e order ih =>
      rw [show e = (e.1, e.2) from rfl, lookup_cons_ite]
      by_cases same : j = e.1
      · simp [same]
      · simp [same, ih]

theorem lookup_of_mem {ν : Type} {order : List (Key × ν)} {f : ν}
    (nodup : (order.map Prod.fst).Nodup)
    (mem : (j, f) ∈ order) : order.lookup j = some f := by
  induction order with
  | nil => cases mem
  | cons e order ih =>
      obtain ⟨absent, rest⟩ := List.nodup_cons.mp nodup
      rw [show e = (e.1, e.2) from rfl, lookup_cons_ite]
      rcases List.mem_cons.mp mem with rfl | later
      · rw [if_pos rfl]
      · have ne : j ≠ e.1 := by
          rintro rfl
          exact absent (List.mem_map.mpr ⟨_, later, rfl⟩)
        rw [if_neg ne, ih rest later]

theorem nodup_put (nodup : (order.map Prod.fst).Nodup) :
    ((put order key fin).map Prod.fst).Nodup := by
  induction order with
  | nil => simp [put]
  | cons e order ih =>
      obtain ⟨k, f⟩ := e
      obtain ⟨absent, rest⟩ := List.nodup_cons.mp nodup
      by_cases at_k : key = k
      · simpa [put, at_k] using nodup
      · simp only [put, at_k, if_false, List.map_cons, List.nodup_cons]
        refine ⟨?_, ih rest⟩
        rw [mem_keys_iff, lookup_put, if_neg (Ne.symm at_k), ← mem_keys_iff]
        exact absent

end put

end Resolved

/-- What an entry says about its key: the cells the table holds there by now, a
surviving hole's read from where the table held the row before the window. -/
def FinState.Holds (l : Layout) (cleared : Bool) (T : Table) (k : Key) (now : Option (List Cell)) :
    FinState → Prop
  | row cells => now = some cells
  | owned cells => now = some cells
  | masked cells movedFrom => cleared = false ∧ cells.length = l.cols.length ∧
      ∃ pre, T (movedFrom.getD k) = some pre ∧ now = some (patch cells pre)
  | gone => now = none

namespace Resolved

/-- The fold has caught up with the table `Y` the tail has reached. -/
structure CaughtUp (l : Layout) (o : Overlay Key (List Cell) ResidueOp) (T : Table)
    (order : List (Key × FinState)) (Y : Table) : Prop where
  nodup : (order.map Prod.fst).Nodup
  keyed : Y.Keyed l
  entry : ∀ k f, order.lookup k = some f → f.Holds l o.cleared T k (Y k)
  rest : ∀ k, order.lookup k = none → Y k = o.base T k ∧ o.pending k = none

namespace CaughtUp

variable {l : Layout} {o : Overlay Key (List Cell) ResidueOp} {T Y Y' : Table}
variable {order : List (Key × FinState)} {k : Key} {row cur : List Cell}

/-- One key written in the fold and in the table. -/
theorem put (caught : CaughtUp l o T order Y) {fin : FinState} {now : Option (List Cell)}
    (keyed : Table.Keyed l (Function.update Y k now)) (holds : fin.Holds l o.cleared T k now) :
    CaughtUp l o T (Resolved.put order k fin) (Function.update Y k now) := by
  refine ⟨nodup_put caught.nodup, keyed, ?_, ?_⟩
  · intro j f there
    rw [lookup_put] at there
    by_cases same : j = k
    · subst same
      rw [if_pos rfl] at there
      cases there
      rwa [Function.update_self]
    · rw [if_neg same] at there
      rw [Function.update_of_ne same]
      exact caught.entry j f there
  · intro j there
    rw [lookup_put] at there
    by_cases same : j = k
    · rw [if_pos same] at there
      cases there
    · rw [if_neg same] at there
      rw [Function.update_of_ne same]
      exact caught.rest j there

/-- Patching from what the fold knows of a present row gives the row's new
image, with every surviving hole still read from the right pre-window row. -/
theorem patchFin (caught : CaughtUp l o T order Y) (held : Y k = some cur)
    (width : row.length = l.cols.length) {k' : Key} {movedFrom : Option Key}
    (origin : movedFrom.getD k' = (baseOf order k).2.getD k) :
    (Resolved.patchFin row (baseOf order k).1 movedFrom).Holds l o.cleared T k'
      (some (patch row cur)) := by
  have whole : .unchangedToast ∉ cur := (caught.keyed k cur held).whole
  have width_cur : row.length ≤ cur.length := by rw [width, (caught.keyed k cur held).width]
  have from_base : (baseOf order k).1 = some cur →
      (Resolved.patchFin row (baseOf order k).1 movedFrom).Holds l o.cleared T k'
        (some (patch row cur)) := by
    intro base
    have no_hole : .unchangedToast ∉ patch row cur := patch_whole width_cur whole
    simp only [Resolved.patchFin, base, if_neg no_hole, FinState.Holds]
  cases entry : order.lookup k with
  | none =>
      obtain ⟨same, unqueued⟩ := caught.rest k entry
      have kept : ¬(o.cleared = true ∨ k ∈ o.dropped) := by
        intro gone
        rw [same, Overlay.base_of_gone unqueued gone] at held
        cases held
      rw [same, Overlay.base_of_untouched unqueued kept] at held
      rw [not_or, Bool.not_eq_true] at kept
      simp only [baseOf, entry, Option.getD_none] at origin ⊢
      simp only [Resolved.patchFin]
      split
      · exact ⟨kept.1, width, cur, origin ▸ held, rfl⟩
      · rename_i no_hole
        simp only [FinState.Holds, patch_of_whole cur no_hole]
  | some f =>
      have holds := caught.entry k f entry
      rw [held] at holds
      cases f with
      | row b =>
          cases holds
          exact from_base (by simp only [baseOf, entry])
      | owned b =>
          cases holds
          exact from_base (by simp only [baseOf, entry])
      | gone => cases holds
      | masked m from' =>
          obtain ⟨uncleared, width_m, pre, read, now⟩ := holds
          cases now
          simp only [baseOf, entry] at origin ⊢
          have folded : patch row (patch m pre) = patch (patch row m) pre :=
            patch_patch row m pre (by rw [width, width_m])
          simp only [Resolved.patchFin]
          split
          · exact ⟨uncleared, by rw [length_patch, width], pre, origin ▸ read, congrArg some folded⟩
          · rename_i no_hole
            simp only [FinState.Holds, folded, patch_of_whole pre no_hole]

/-- One op of the tail. -/
theorem step (caught : CaughtUp l o T order Y) {op : ResidueOp} (fits : op.Fits l)
    (ran : op.step l Y = .ok Y') :
    CaughtUp l o T (foldOp l.keyIdx order op) Y' := by
  have keyed' := ResidueOp.keyed_step fits caught.keyed ran
  cases op with
  | upsert row =>
      obtain ⟨k, isRow⟩ := fits
      rw [ResidueOp.step_upsert isRow.key] at ran
      cases ran
      rw [foldOp, rowKeyRefs_eq isRow.key]
      exact caught.put keyed' rfl
  | delete key =>
      cases ran
      exact caught.put keyed' rfl
  | maskedUpdate key row =>
      simp only [ResidueOp.step] at ran
      split at ran
      · rename_i cur held
        cases ran
        exact caught.put keyed' (caught.patchFin held fits.1 rfl)
      · cases ran
  | rekey oldKey newKey row =>
      simp only [ResidueOp.step] at ran
      split at ran
      · rename_i cur held free
        cases ran
        have holds : (Resolved.patchFin row (baseOf order oldKey).1
            (some ((baseOf order oldKey).2.getD oldKey))).Holds l o.cleared T newKey
              (some (patch row cur)) := caught.patchFin held fits.1 rfl
        have gone : FinState.gone.Holds l o.cleared T oldKey none := rfl
        exact (caught.put (caught.keyed.erase oldKey) gone).put keyed' holds
      · cases ran

/-- The whole tail. -/
theorem runOps {ops : List ResidueOp} (caught : CaughtUp l o T order Y)
    (fits : ∀ op ∈ ops, op.Fits l) (ran : Foundation.runOps (ResidueOp.step l) ops Y = .ok Y') :
    CaughtUp l o T (ops.foldl (foldOp l.keyIdx) order) Y' := by
  induction ops generalizing order Y with
  | nil =>
      cases ran
      exact caught
  | cons op ops ih =>
      rw [runOps_cons] at ran
      cases first : op.step l Y with
      | error e => simp [first, Except.bind] at ran
      | ok Y₁ =>
          simp only [first, Except.bind] at ran
          exact ih (caught.step (fits op (.head _)) first) (fun op' mem => fits op' (.tail _ mem))
            ran

end CaughtUp

/-- The upserts, each filed under its own key. -/
theorem lookup_foldl_put {l : Layout} {upserts : List Tuple} {order : List (Key × FinState)}
    (keyed : ∀ r ∈ upserts, ∃ k, l.keyTexts r.toCells = some k)
    (distinct : upserts.Pairwise fun r r' => l.keyTexts r.toCells ≠ l.keyTexts r'.toCells)
    (k : Key) :
    (upserts.foldl (fun order row =>
      put order (rowKeyRefs l.keyIdx row.toCells) (.owned row.toCells)) order).lookup k =
      (((upserts.map Tuple.toCells).find? fun r => l.keyTexts r = some k).map .owned).or
        (order.lookup k) := by
  induction upserts generalizing order with
  | nil => simp
  | cons r upserts ih =>
      obtain ⟨others, rest⟩ := List.pairwise_cons.mp distinct
      obtain ⟨j, key⟩ := keyed r (.head _)
      rw [List.foldl_cons, ih (fun r' mem => keyed r' (.tail _ mem)) rest, lookup_put,
        rowKeyRefs_eq key, List.map_cons]
      by_cases same : k = j
      · subst same
        have gone : (upserts.map Tuple.toCells).find?
          (fun r' => l.keyTexts r' = some k) = none := by
          rw [List.find?_eq_none]
          intro r' mem
          obtain ⟨t, mem_t, rfl⟩ := List.mem_map.mp mem
          simpa [key] using Ne.symm (others t mem_t)
        simp [gone, key]
      · have ne : l.keyTexts r.toCells ≠ some k := by
          rw [key]
          simpa [eq_comm] using same
        rw [if_neg same, List.find?_cons_of_neg (by simpa using ne)]

theorem nodup_foldl_put {keyIdx : List Nat} {upserts : List Tuple} {order : List (Key × FinState)}
    (nodup : (order.map Prod.fst).Nodup) :
    ((upserts.foldl (fun order row =>
      put order (rowKeyRefs keyIdx row.toCells) (.owned row.toCells)) order).map
        Prod.fst).Nodup := by
  induction upserts generalizing order with
  | nil => exact nodup
  | cons r upserts ih => exact ih (nodup_put nodup)

theorem lookup_start {c : Collapser} (sound : c.Sound) (k : Key) :
    (start c.layout.keyIdx c.finish.upserts).lookup k = (c.overlay.pending k).map .owned := by
  rw [start, lookup_foldl_put ?_ ?_ k, List.lookup_nil, Option.or_none]
  · rfl
  · intro r mem
    obtain ⟨k, isRow⟩ := sound.isRow_of_mem_images (List.mem_map_of_mem mem)
    exact ⟨k, isRow.key⟩
  · have pairs := sound.pairwise_images
    rwa [← Collapser.upserts_finish, List.pairwise_map] at pairs

/-- The fold starts where the set phases end. -/
theorem caughtUp_start {c : Collapser} (sound : c.Sound) {T : Table} (keyed : T.Keyed c.layout) :
    CaughtUp c.layout c.overlay T (start c.layout.keyIdx c.finish.upserts) (c.overlay.base T) := by
  refine ⟨nodup_foldl_put List.nodup_nil, sound.keyed_base keyed, ?_, ?_⟩
  · intro k f there
    rw [lookup_start sound, Option.map_eq_some_iff] at there
    obtain ⟨r, pending, rfl⟩ := there
    exact Overlay.base_of_pending pending
  · intro k there
    rw [lookup_start sound, Option.map_eq_none_iff] at there
    exact ⟨rfl, there⟩

end Resolved

/-- What one image leaves at its key: a hole reads the pre-window row at
`movedFrom`, or at the key itself. -/
def Image.write (T : Table) (k : Key) : Image → Option (List Cell)
  | row cells => some cells
  | masked cells movedFrom => (T (movedFrom.getD k)).map (patch cells)
  | delete => none

/-- A window's images written as a set, over a table emptied first on a TRUNCATE. -/
def writeImages (truncate : Bool) (T : Table) (rows : List (Key × Image)) : Table := fun k =>
  match rows.lookup k with
  | some image => image.write T k
  | none => if truncate then none else T k

namespace Resolved

/-- The fold adds an entry for each key an op names, and drops none. -/
theorem lookup_foldOp {l : Layout} {order : List (Key × FinState)} {op : ResidueOp}
    (fits : op.Fits l) (k : Key) :
    (foldOp l.keyIdx order op).lookup k ≠ none ↔ order.lookup k ≠ none ∨ k ∈ op.keys l := by
  cases op with
  | upsert row =>
      obtain ⟨j, isRow⟩ := fits
      rw [foldOp, rowKeyRefs_eq isRow.key, lookup_put, ← ResidueOp.keys_upsert isRow.key]
      by_cases same : k = j <;> simp [same]
  | delete key =>
      rw [foldOp, lookup_put]
      by_cases same : k = key <;> simp [ResidueOp.keys, same]
  | maskedUpdate key row =>
      rw [foldOp, lookup_put]
      by_cases same : k = key <;> simp [ResidueOp.keys, same]
  | rekey oldKey newKey row =>
      rw [foldOp, lookup_put, lookup_put]
      by_cases same : k = newKey
      · simp [ResidueOp.keys, same]
      · rw [if_neg same]
        by_cases same' : k = oldKey <;> simp [ResidueOp.keys, same, same']

theorem lookup_foldOps {l : Layout} {order : List (Key × FinState)} {ops : List ResidueOp}
    (fits : ∀ op ∈ ops, op.Fits l) (k : Key) :
    (ops.foldl (foldOp l.keyIdx) order).lookup k ≠ none ↔
      order.lookup k ≠ none ∨ ∃ op ∈ ops, k ∈ op.keys l := by
  induction ops generalizing order with
  | nil => simp
  | cons op ops ih =>
      rw [List.foldl_cons, ih fun op' mem => fits op' (.tail _ mem), lookup_foldOp
        (fits op (.head _))]
      simp [or_assoc]

private theorem lookup_map_image (order : List (Key × FinState)) (k : Key) :
    (order.map fun e => (e.1, e.2.image)).lookup k = (order.lookup k).map FinState.image := by
  induction order with
  | nil => rfl
  | cons e order ih =>
      rw [List.map_cons, lookup_cons_ite, ih, show e = (e.1, e.2) from rfl, lookup_cons_ite]
      split <;> rfl

private theorem lookup_map_delete (keys : List Key) (k : Key) :
    (keys.map fun key => (key, Image.delete)).lookup k =
    if k ∈ keys then some .delete else none := by
  induction keys with
  | nil => rfl
  | cons key keys ih =>
      rw [List.map_cons, lookup_cons_ite, ih]
      by_cases same : k = key <;> simp [same]

theorem keys_rows (r : Resolved) : r.rows.map Prod.fst = r.finals.map Prod.fst ++ r.deleteOnly := by
  simp [rows, Function.comp_def]

theorem lookup_rows (r : Resolved) (k : Key) :
    r.rows.lookup k = ((r.finals.lookup k).map FinState.image).or
      (if k ∈ r.deleteOnly then some .delete else none) := by
  rw [rows, List.lookup_append, lookup_map_image, lookup_map_delete]

/-- The set phase or the tail of a window writes the key. -/
def Writes (w : TableWindow Collapsed) (k : Key) : Prop :=
  k ∈ w.body.upserts.map (fun row => rowKeyRefs w.layout.keyIdx row.toCells) ∨
    ∃ op ∈ w.body.residue, k ∈ op.keys w.layout

section window

variable {c : Collapser} {S S' : SourceTable c.layout} {seen : Set Key} {k : Key}

/-- The window a sound collapser seals into, folded. -/
private def resolved (sound : c.Sound) : Resolved :=
  resolveWindow ⟨c.layout, c.finish, sound.rowsFit⟩

theorem caughtUp_resolved (tracks : Tracks S.rows c S' seen) :
    CaughtUp c.layout c.overlay S.rows (resolved tracks.sound).finals S'.rows :=
  (caughtUp_start tracks.sound S.keyed).runOps tracks.sound.fits tracks.means

theorem mem_deleteOnly (sound : c.Sound) :
    k ∈ (resolved sound).deleteOnly ↔
      c.truncated = false ∧ k ∈ c.overlay.dropped ∧ (resolved sound).finals.lookup k = none := by
  have deletes : k ∈ c.finish.deletes ↔ k ∈ c.overlay.dropped := sound.mem_deletes
  change k ∈ (if c.truncated = true then [] else c.finish.deletes.filter
    fun k => ((resolved sound).finals.lookup k).isNone) ↔ _
  cases c.truncated with
  | true => simp
  | false => simp [deletes]

/-- The finals are the keys an upsert or the tail names. -/
theorem mem_finals (tracks : Tracks S.rows c S' seen) :
    (resolved tracks.sound).finals.lookup k ≠ none ↔
      c.overlay.pending k ≠ none ∨ k ∈ c.overlay.sticky := by
  have caught := caughtUp_start tracks.sound S.keyed
  have folded : (resolved tracks.sound).finals.lookup k ≠ none ↔
      (start c.layout.keyIdx c.finish.upserts).lookup k ≠ none ∨
        ∃ op ∈ c.overlay.tail, k ∈ op.keys c.layout := lookup_foldOps tracks.sound.fits k
  rw [folded, ← tracks.named k, lookup_start tracks.sound]
  simp

theorem nodup_rows (tracks : Tracks S.rows c S' seen) :
    ((resolved tracks.sound).rows.map Prod.fst).Nodup := by
  rw [keys_rows, List.nodup_append]
  refine ⟨(caughtUp_resolved tracks).nodup, ?_, ?_⟩
  · change (if c.truncated = true then [] else c.finish.deletes.filter _).Nodup
    split
    · exact List.nodup_nil
    · exact tracks.sound.nodup_deletes.filter _
  · intro k final j deleted same
    subst same
    exact mem_keys_iff.mp final ((mem_deleteOnly tracks.sound).mp deleted).2.2

theorem mem_keys_rows (tracks : Tracks S.rows c S' seen) :
    k ∈ (resolved tracks.sound).rows.map Prod.fst ↔
      c.overlay.pending k ≠ none ∨ k ∈ c.overlay.sticky ∨
        c.truncated = false ∧ k ∈ c.overlay.dropped := by
  rw [keys_rows, List.mem_append, mem_keys_iff, mem_deleteOnly]
  have finals := mem_finals tracks (k := k)
  by_cases final : (resolved tracks.sound).finals.lookup k = none
  · have unnamed := finals.not.mp (not_not.mpr final)
    rw [not_or] at unnamed
    simp [final, unnamed.1, unnamed.2]
  · have named := finals.mp final
    simp only [final, not_false_eq_true, ne_eq, true_or, true_iff]
    rw [← or_assoc]
    exact .inl named

/-- The final images in order, then the deletes that have none. -/
theorem rows_in_order (tracks : Tracks S.rows c S' seen) :
    ∃ (finals : List (Key × Image)) (deleteOnly : List Key),
      (resolved tracks.sound).rows = finals ++ deleteOnly.map (fun k => (k, Image.delete)) ∧
        (∀ k, k ∈ finals.map Prod.fst ↔ Writes ⟨c.layout, c.finish, tracks.sound.rowsFit⟩ k) ∧
        (∀ k, k ∈ deleteOnly ↔ c.finish.truncate = false ∧ k ∈ c.finish.deletes ∧
          ¬Writes ⟨c.layout, c.finish, tracks.sound.rowsFit⟩ k) := by
  have writes (k : Key) : Writes ⟨c.layout, c.finish, tracks.sound.rowsFit⟩ k ↔
      (resolved tracks.sound).finals.lookup k ≠ none := by
    rw [mem_finals tracks, ← tracks.sound.mem_upsertKeys]
    exact or_congr_right (tracks.named k).symm
  refine ⟨(resolved tracks.sound).finals.map fun e => (e.1, e.2.image),
    (resolved tracks.sound).deleteOnly, rfl, fun k => ?_, fun k => ?_⟩
  · rw [writes, ← mem_keys_iff, List.map_map]
    rfl
  · rw [writes, not_not, mem_deleteOnly, ← tracks.sound.mem_deletes]
    rfl

/-- A surviving hole reads a row the pre-window table has. -/
theorem read_of_mem_rows (tracks : Tracks S.rows c S' seen) {cells : List Cell}
    {movedFrom : Option Key} (mem : (k, Image.masked cells movedFrom) ∈
      (resolved tracks.sound).rows) :
    S.rows (movedFrom.getD k) ≠ none := by
  have caught := caughtUp_resolved tracks
  rw [rows, List.mem_append] at mem
  rcases mem with final | deleted
  · obtain ⟨⟨j, f⟩, there, same⟩ := List.mem_map.mp final
    simp only [Prod.mk.injEq] at same
    obtain ⟨rfl, image⟩ := same
    have holds := caught.entry j f (lookup_of_mem caught.nodup there)
    cases f with
    | masked cells' from' =>
        cases image
        obtain ⟨_, _, pre, read, _⟩ := holds
        rw [read]
        exact Option.some_ne_none pre
    | row cells' => cases image
    | owned cells' => cases image
    | gone => cases image
  · obtain ⟨key, _, same⟩ := List.mem_map.mp deleted
    cases same

/-- Writing the images as a set lands the source's table. -/
theorem writeImages_rows (tracks : Tracks S.rows c S' seen) :
    writeImages c.truncated S.rows (resolved tracks.sound).rows = S'.rows := by
  have caught := caughtUp_resolved tracks
  funext k
  rw [writeImages, lookup_rows]
  cases final : (resolved tracks.sound).finals.lookup k with
  | some f =>
      have holds := caught.entry k f final
      simp only [Option.map_some, Option.some_or]
      cases f with
      | row cells => exact holds.symm
      | owned cells => exact holds.symm
      | gone => exact holds.symm
      | masked cells movedFrom =>
          obtain ⟨_, _, pre, read, now⟩ := holds
          simp only [FinState.image, Image.write, read, now, Option.map_some]
  | none =>
      obtain ⟨same, unqueued⟩ := caught.rest k final
      simp only [Option.map_none, Option.none_or]
      rw [same]
      by_cases gone : c.overlay.cleared = true ∨ k ∈ c.overlay.dropped
      · rw [Overlay.base_of_gone unqueued gone]
        by_cases truncated : c.truncated = true
        · have none_deleted : k ∉ (resolved tracks.sound).deleteOnly := by
            rw [mem_deleteOnly, truncated]
            simp
          simp [none_deleted, truncated]
        · have deleted : k ∈ (resolved tracks.sound).deleteOnly :=
            (mem_deleteOnly _).mpr ⟨by simpa using truncated, gone.resolve_left truncated, final⟩
          simp [deleted, Image.write]
      · rw [Overlay.base_of_untouched unqueued gone]
        rw [not_or] at gone
        have none_deleted : k ∉ (resolved tracks.sound).deleteOnly :=
          fun deleted => gone.2 ((mem_deleteOnly _).mp deleted).2.1
        simp [none_deleted, show ¬c.truncated = true from gone.1]

end window

/-- The images of a window, against the keys it touched since its last TRUNCATE and the table
before and after it. -/
structure OneImageEach (w : TableWindow Collapsed) (touched : Set Key) (T T' : Table)
    (rows : List (Key × Image)) : Prop where
  once : (rows.map Prod.fst).Nodup
  /-- The final images come first: one for each key an upsert or the tail writes. Then the
  deleted keys that have none, and after a TRUNCATE there are none of these. -/
  order : ∃ (finals : List (Key × Image)) (deleteOnly : List Key),
    rows = finals ++ deleteOnly.map (fun k => (k, Image.delete)) ∧
    (∀ k, k ∈ finals.map Prod.fst ↔ Writes w k) ∧
    (∀ k, k ∈ deleteOnly ↔ w.body.truncate = false ∧ k ∈ w.body.deletes ∧ ¬Writes w k)
  every : w.body.truncate = false → ∀ k, k ∈ rows.map Prod.fst ↔ k ∈ touched
  cut : w.body.truncate = true → (∀ k ∈ rows.map Prod.fst, k ∈ touched) ∧
    ∀ k ∈ touched, k ∉ rows.map Prod.fst → T' k = none
  reads : ∀ k cells movedFrom, (k, Image.masked cells movedFrom) ∈ rows →
    T (movedFrom.getD k) ≠ none

/-- The one-image-per-key fold agrees with the ordered apply. Each key is written
once; without a TRUNCATE these are the keys the window touched, and with one, a
touched key that is left out has no row. Every surviving hole reads a row the
pre-window table has, and the images written as a set leave the table that the
phases leave. -/
theorem rows_agree_with_phases {l : Layout} {S S' : SourceTable l}
    {events : List (Nat × StreamOp)} (destTable : String)
    (legal : S.run? (events.map Prod.snd) = some S') :
    ∃ c w, (Collapser.new l).landAll events = .ok c ∧ c.seal destTable = .ok w ∧
      OneImageEach w (touchedKeys l (events.map Prod.snd)) S.rows S'.rows (resolveWindow w).rows ∧
      DestPg.applyUnit destTable (some w) S.rows =
        .ok (c.events, writeImages w.body.truncate S.rows (resolveWindow w).rows) := by
  obtain ⟨c, landed, tracks⟩ := Collapser.tracks_of_legal legal
  obtain rfl := tracks.layout
  have written := writeImages_rows tracks
  have seen : ∀ k, k ∈ touchedKeys c.layout (events.map Prod.snd) ↔
      c.overlay.pending k ≠ none ∨ k ∈ c.overlay.sticky ∨ k ∈ c.overlay.dropped := by
    intro k
    rw [← tracks.touched]
    simp only [Overlay.touched, Set.mem_union, Set.mem_ofPred_eq, or_assoc]
    rw [or_comm (a := k ∈ c.overlay.dropped)]
  refine ⟨c, _, landed, tracks.sound.seal destTable, ?_, ?_⟩
  · refine ⟨nodup_rows tracks, ?_, ?_, ?_, fun k cells movedFrom => read_of_mem_rows tracks⟩
    · exact rows_in_order tracks
    · intro kept k
      rw [seen]
      refine (mem_keys_rows tracks).trans ?_
      simp [show c.truncated = false from kept]
    · intro cut
      refine ⟨fun k mem => ?_, fun k touched absent => ?_⟩
      · rw [seen]
        exact ((mem_keys_rows tracks).mp mem).imp_right (.imp_right And.right)
      · have unlisted : (resolved tracks.sound).rows.lookup k = none := by
          by_contra listed
          exact absent (mem_keys_iff.mpr listed)
        rw [← written, writeImages, unlisted]
        exact if_pos cut
  · exact written ▸ applyUnit_of_meaning tracks.sound S.keyed tracks.means

/-- A moved masked row, read at the key it came from. -/
theorem rows_agree_with_phases_move :
    ∃ c w, (Collapser.new Sample.layout).landAll Sample.moveThenReuse = .ok c ∧
      c.seal "public.t" = .ok w ∧
      OneImageEach w (touchedKeys Sample.layout (Sample.moveThenReuse.map Prod.snd))
        Sample.one.rows
        ((Sample.one.run? (Sample.moveThenReuse.map Prod.snd)).get (by decide)).rows
        (resolveWindow w).rows ∧
      DestPg.applyUnit "public.t" (some w) Sample.one.rows =
        .ok (c.events, writeImages w.body.truncate Sample.one.rows (resolveWindow w).rows) :=
  rows_agree_with_phases "public.t" (Option.some_get _).symm

/-- A key that a TRUNCATE window only deleted is touched and not yielded. -/
theorem rows_leave_out_deleted_after_truncate :
    let events : List (Nat × StreamOp) := [(100, .truncate), (100, .insert (Sample.image 1 11)),
      (100, .delete (Sample.image 1 11))]
    (Sample.one.run? (events.map Prod.snd)).isSome = true ∧
    Sample.key 1 ∈ touchedKeys Sample.layout (events.map Prod.snd) ∧
    ∃ c w, (Collapser.new Sample.layout).landAll events = .ok c ∧ c.seal "public.t" = .ok w ∧
      Sample.key 1 ∉ (resolveWindow w).rows.map Prod.fst := by
  refine ⟨by decide, .inl rfl, _, _, rfl, rfl, by decide⟩

end Resolved

end Apitap
