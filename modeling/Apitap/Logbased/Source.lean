import Apitap.Logbased.Collapse
import Mathlib.Data.Option.Basic
import Mathlib.Logic.Function.Basic

/-!
# The source table and its legal row events

What a window's events mean at the source: a table maps each key to the full row
that carries it, and a row event is legal when the source can really have logged
it. `SourceTable.step?` is the events' meaning, one at a time; it knows nothing
of windows. A `SourceTable` can only hold whole rows filed under their own key.
-/

namespace Apitap

/-- Rows by key, at either end. -/
abbrev Table := Key → Option (List Cell)

/-- The text in a cell, when there is one. -/
def textAt (cells : List Cell) (i : Nat) : Option Bytes :=
  match cells[i]? with
  | some (Cell.text t) => some t
  | _ => none

theorem textAt_eq_some {cells : List Cell} {i : Nat} {t : Bytes} :
    textAt cells i = some t ↔ cells[i]? = some (.text t) := by
  unfold textAt
  split
  · rename_i t' there
    simp [there]
  · rename_i other
    simp only [reduceCtorEq, false_iff]
    exact other t

/-- The key columns' texts, when all of them are texts. -/
def Layout.keyTexts (l : Layout) (cells : List Cell) : Option Key := l.keyIdx.mapM (textAt cells)

theorem mapM_eq_some_iff {α β : Type} {f : α → Option β} {xs : List α} {ys : List β} :
    xs.mapM f = some ys ↔ List.Forall₂ (fun x y => f x = some y) xs ys := by
  induction xs generalizing ys with
  | nil => simp [eq_comm]
  | cons x xs ih =>
      rw [List.mapM_cons, List.forall₂_cons_left_iff]
      cases fx : f x with
      | none => simp
      | some y =>
          cases rest : xs.mapM f <;> simp [← ih, rest, eq_comm]

section keyTexts

variable {l : Layout} {cells cells' : List Cell} {k : Key}

theorem Layout.keyTexts_eq_some_iff :
    l.keyTexts cells = some k ↔
      List.Forall₂ (fun i t => cells[i]? = some (.text t)) l.keyIdx k := by
  simp only [keyTexts, mapM_eq_some_iff, textAt_eq_some]

/-- A row with a key has a text in every key column. -/
theorem Layout.text_of_mem_keyIdx (key : l.keyTexts cells = some k) {i : Nat}
    (mem : i ∈ l.keyIdx) :
    ∃ t, cells[i]? = some (.text t) := by
  have texts := keyTexts_eq_some_iff.mp key
  obtain ⟨j, hj, rfl⟩ := List.getElem_of_mem mem
  exact ⟨_, texts.get hj (texts.length_eq ▸ hj)⟩

/-- Cells that agree in the key columns have the same key. -/
theorem Layout.keyTexts_congr (same : ∀ i ∈ l.keyIdx, cells[i]? = cells'[i]?) :
    l.keyTexts cells = l.keyTexts cells' := by
  unfold keyTexts
  have go : ∀ idx : List Nat, (∀ i ∈ idx, cells[i]? = cells'[i]?) →
      idx.mapM (textAt cells) = idx.mapM (textAt cells') := by
    intro idx same
    induction idx with
    | nil => rfl
    | cons i idx ih =>
        have here : textAt cells i = textAt cells' i := by simp only [textAt, same i (.head _)]
        rw [List.mapM_cons, List.mapM_cons, here, ih fun j mem => same j (.tail _ mem)]
  exact go l.keyIdx same

/-- Rows with the same key agree in the key columns. -/
theorem Layout.agree_of_keyTexts (key : l.keyTexts cells = some k)
    (key' : l.keyTexts cells' = some k) {i : Nat} (mem : i ∈ l.keyIdx) :
    cells[i]? = cells'[i]? := by
  have texts := keyTexts_eq_some_iff.mp key
  have texts' := keyTexts_eq_some_iff.mp key'
  obtain ⟨j, hj, rfl⟩ := List.getElem_of_mem mem
  have hk : j < k.length := texts.length_eq ▸ hj
  exact (texts.get hj hk).trans (texts'.get hj hk).symm

end keyTexts

/-- A whole row of the layout, with its key. -/
structure Layout.IsRow (l : Layout) (k : Key) (cells : List Cell) : Prop where
  width : cells.length = l.cols.length
  whole : .unchangedToast ∉ cells
  key : l.keyTexts cells = some k

/-- The key a whole row is filed under; `none` for anything else. -/
def Layout.rowKey? (l : Layout) (cells : List Cell) : Option { k : Key // l.IsRow k cells } :=
  match key : l.keyTexts cells with
  | none => none
  | some k =>
      if fits : cells.length = l.cols.length ∧ .unchangedToast ∉ cells then
        some ⟨k, fits.1, fits.2, key⟩
      else none

/-- Fill the cells an image does not carry from `base`. -/
def patch : List Cell → List Cell → List Cell
  | c :: row, b :: base => (if c = .unchangedToast then b else c) :: patch row base
  | row, _ => row

section patch

@[simp] theorem length_patch (row base : List Cell) : (patch row base).length = row.length := by
  induction row generalizing base with
  | nil => rfl
  | cons c row ih =>
      cases base with
      | nil => rfl
      | cons b base => simp [patch, ih]

theorem getElem?_patch (row base : List Cell) (i : Nat) :
    (patch row base)[i]? =
      if row[i]? = some .unchangedToast then base[i]?.or (some .unchangedToast) else row[i]? := by
  induction row generalizing base i with
  | nil => simp [patch]
  | cons c row ih =>
      cases base with
      | nil => by_cases hole : (c :: row)[i]? = some .unchangedToast <;> simp [patch, hole]
      | cons b base =>
          cases i with
          | zero => by_cases hole : c = .unchangedToast <;> simp [patch, hole]
          | succ i => simpa [patch] using ih base i

theorem patch_of_whole {row : List Cell} (base : List Cell) (whole : .unchangedToast ∉ row) :
    patch row base = row := by
  induction row generalizing base with
  | nil => rfl
  | cons c row ih =>
      cases base with
      | nil => rfl
      | cons b base =>
          simp only [List.mem_cons, not_or] at whole
          rw [patch, if_neg (Ne.symm whole.1), ih base whole.2]

theorem patch_patch (row mid base : List Cell) (width : row.length ≤ mid.length) :
    patch row (patch mid base) = patch (patch row mid) base := by
  induction row generalizing mid base with
  | nil => rfl
  | cons c row ih =>
      cases mid with
      | nil => simp at width
      | cons m mid =>
          cases base with
          | nil => simp [patch]
          | cons b base =>
              have rest := ih mid base (by simpa using width)
              by_cases hole : c = .unchangedToast <;> simp [patch, hole, rest]

/-- A whole base fills every hole. -/
theorem patch_whole {row base : List Cell} (width : row.length ≤ base.length)
    (whole : .unchangedToast ∉ base) : .unchangedToast ∉ patch row base := by
  induction row generalizing base with
  | nil => simp [patch]
  | cons c row ih =>
      cases base with
      | nil => simp at width
      | cons b base =>
          simp only [List.mem_cons, not_or] at whole
          have rest := ih (by simpa using width) whole.2
          by_cases hole : c = .unchangedToast
          · simpa [patch, hole, rest] using whole.1
          · simpa [patch, hole, rest] using Ne.symm hole

end patch

/-- An image with its key in place keeps that key, whatever fills its holes. -/
theorem Layout.keyTexts_patch {l : Layout} {row : List Cell} {k : Key}
    (key : l.keyTexts row = some k) (base : List Cell) : l.keyTexts (patch row base) = some k := by
  rw [← key]
  refine keyTexts_congr fun i mem => ?_
  obtain ⟨t, there⟩ := text_of_mem_keyIdx key mem
  rw [getElem?_patch, there, if_neg (by simp)]

/-- The key cells a row lends an image are those any image with its key lends it. -/
theorem Layout.keyTexts_patch_of_same {l : Layout} {row old cur : List Cell} {j k : Key}
    (oldKey : l.keyTexts old = some j) (curKey : l.keyTexts cur = some j)
    (newKey : l.keyTexts (patch row cur) = some k) : l.keyTexts (patch row old) = some k := by
  rw [← newKey]
  refine keyTexts_congr fun i mem => ?_
  rw [getElem?_patch, getElem?_patch, agree_of_keyTexts oldKey curKey mem]

/-- An image over a whole row of the layout stands for a whole row. -/
theorem Layout.isRow_patch {l : Layout} {row cur : List Cell} {j k : Key}
    (width : row.length = l.cols.length) (key : l.keyTexts row = some k) (isRow : l.IsRow j cur) :
    l.IsRow k (patch row cur) where
  width := by rw [length_patch, width]
  whole := patch_whole (Nat.le_of_eq (width.trans isRow.width.symm)) isRow.whole
  key := keyTexts_patch key cur

/-- The keys a row event is about: the one its old image names, or its new image
with no old one, and the one its new image carries. -/
def StreamOp.keys (l : Layout) : StreamOp → Set Key
  | .insert row => {k | l.keyTexts row.toCells = some k}
  | .update old row _ =>
      {k | l.keyTexts (old.getD row).toCells = some k ∨
        l.keyTexts (patch row.toCells (old.getD row).toCells) = some k}
  | .delete old => {k | l.keyTexts old.toCells = some k}
  | .truncate => ∅

/-- The keys touched since the last TRUNCATE. -/
def touchedKeys (l : Layout) (ops : List StreamOp) : Set Key :=
  ops.foldl (fun seen op => if op = .truncate then ∅ else op.keys l ∪ seen) ∅

structure SourceTable (l : Layout) where
  rows : Table
  keyed : ∀ k r, rows k = some r → l.IsRow k r

namespace SourceTable

variable {l : Layout}

def empty (l : Layout) : SourceTable l := ⟨fun _ => none, fun _ _ h => nomatch h⟩

def put (S : SourceTable l) (k : Key) (r : List Cell) (row : l.IsRow k r) : SourceTable l where
  rows := Function.update S.rows k (some r)
  keyed := by
    intro j s held
    by_cases same : j = k
    · subst same
      rw [Function.update_self] at held
      exact Option.some.inj held ▸ row
    · rw [Function.update_of_ne same] at held
      exact S.keyed j s held

def erase (S : SourceTable l) (k : Key) : SourceTable l where
  rows := Function.update S.rows k none
  keyed := by
    intro j s held
    by_cases same : j = k
    · subst same
      rw [Function.update_self] at held
      cases held
    · rw [Function.update_of_ne same] at held
      exact S.keyed j s held

@[simp] theorem put_rows (S : SourceTable l) (k : Key) (r : List Cell) (row : l.IsRow k r) :
    (S.put k r row).rows = Function.update S.rows k (some r) := rfl

@[simp] theorem erase_rows (S : SourceTable l) (k : Key) :
    (S.erase k).rows = Function.update S.rows k none := rfl

/-- An update names the row it is about by its old image, or, with none, by the
key its new image carries. A full old image is that row itself. The cells the
new image does not carry keep their values, and a new key must be free. -/
def update? (S : SourceTable l) (old : Option Tuple) (row : Tuple) (full : Bool) :
    Option (SourceTable l) := do
  let oldKey ← l.keyTexts (old.getD row).toCells
  let cur ← S.rows oldKey
  guard (full = true → ∀ o, old = some o → o.toCells = cur)
  let new ← l.rowKey? (patch row.toCells cur)
  guard (new.val = oldKey ∨ S.rows new.val = none)
  return (S.erase oldKey).put new.val _ new.property

/-- One row event at the source; `none` when the source cannot have logged it. -/
def step? (S : SourceTable l) : StreamOp → Option (SourceTable l)
  | .insert row => do
      let new ← l.rowKey? row.toCells
      guard (S.rows new.val = none)
      return S.put new.val _ new.property
  | .update old row full => S.update? old row full
  | .delete old => do
      let k ← l.keyTexts old.toCells
      guard (S.rows k ≠ none)
      return S.erase k
  | .truncate => return empty l

/-- What a legal insert does. -/
theorem step?_insert {S S' : SourceTable l} {row : Tuple}
    (legal : S.step? (.insert row) = some S') :
    ∃ k, ∃ isRow : l.IsRow k row.toCells, S.rows k = none ∧ S' = S.put k _ isRow := by
  simp only [step?, Option.bind_eq_bind, Option.bind_eq_some_iff, Option.pure_def,
    Option.guard_eq_some', exists_const, Option.some.injEq] at legal
  obtain ⟨⟨k, isRow⟩, _, free, rfl⟩ := legal
  exact ⟨k, isRow, free, rfl⟩

/-- What a legal delete does. -/
theorem step?_delete {S S' : SourceTable l} {old : Tuple}
    (legal : S.step? (.delete old) = some S') :
    ∃ k cur, l.keyTexts old.toCells = some k ∧ S.rows k = some cur ∧ S' = S.erase k := by
  simp only [step?, Option.bind_eq_bind, Option.bind_eq_some_iff, Option.pure_def,
    Option.guard_eq_some', exists_const, Option.some.injEq] at legal
  obtain ⟨k, key, present, rfl⟩ := legal
  obtain ⟨cur, held⟩ := Option.ne_none_iff_exists'.mp present
  exact ⟨k, cur, key, held, rfl⟩

/-- What a legal update does. -/
theorem step?_update {S S' : SourceTable l} {old : Option Tuple} {row : Tuple} {full : Bool}
    (legal : S.step? (.update old row full) = some S') :
    ∃ j cur k, ∃ isRow : l.IsRow k (patch row.toCells cur),
      l.keyTexts (old.getD row).toCells = some j ∧ S.rows j = some cur ∧
        (full = true → ∀ o, old = some o → o.toCells = cur) ∧
        (k = j ∨ S.rows k = none) ∧ S' = (S.erase j).put k _ isRow := by
  simp only [step?, update?, Option.bind_eq_bind, Option.bind_eq_some_iff, Option.pure_def,
    Option.guard_eq_some', exists_const, Option.some.injEq] at legal
  obtain ⟨j, key, cur, held, whole, ⟨k, isRow⟩, _, free, rfl⟩ := legal
  exact ⟨j, cur, k, isRow, key, held, whole, free, rfl⟩

def run? (S : SourceTable l) : List StreamOp → Option (SourceTable l)
  | [] => some S
  | op :: ops => (S.step? op).bind (·.run? ops)

section run

variable {S S' : SourceTable l} {k : Key}

theorem run?_append (ops ops' : List StreamOp) :
    S.run? (ops ++ ops') = (S.run? ops).bind (·.run? ops') := by
  induction ops generalizing S with
  | nil => rfl
  | cons op ops ih =>
      rw [List.cons_append, run?, run?]
      cases S.step? op with
      | none => rfl
      | some S₁ => rw [Option.bind_some, Option.bind_some, ih]

/-- An event leaves the keys it is not about alone. -/
theorem step?_frame {op : StreamOp} (legal : S.step? op = some S') (kept : op ≠ .truncate)
    (apart : k ∉ op.keys l) : S'.rows k = S.rows k := by
  cases op with
  | insert row =>
      obtain ⟨j, isRow, -, rfl⟩ := step?_insert legal
      have ne : k ≠ j := fun same => apart (same ▸ isRow.key)
      exact Function.update_of_ne ne ..
  | update old row full =>
      obtain ⟨i, cur, j, isRow, oldKey, held, -, -, rfl⟩ := step?_update legal
      have left : k ≠ i := fun same => apart (.inl (same ▸ oldKey))
      have entered : k ≠ j := fun same => apart
        (.inr (same ▸ Layout.keyTexts_patch_of_same oldKey (S.keyed i cur held).key isRow.key))
      rw [put_rows, erase_rows, Function.update_of_ne entered, Function.update_of_ne left]
  | delete old =>
      obtain ⟨j, cur, oldKey, -, rfl⟩ := step?_delete legal
      have ne : k ≠ j := fun same => apart (same ▸ oldKey)
      exact Function.update_of_ne ne ..
  | truncate => exact absurd rfl kept

theorem run?_frame {ops : List StreamOp} (legal : S.run? ops = some S')
    (apart : ∀ op ∈ ops, op ≠ .truncate ∧ k ∉ op.keys l) : S'.rows k = S.rows k := by
  induction ops generalizing S with
  | nil =>
      obtain rfl := Option.some.inj legal
      rfl
  | cons op ops ih =>
      obtain ⟨S₁, first, rest⟩ := Option.bind_eq_some_iff.mp legal
      rw [ih rest fun op mem => apart op (.tail _ mem)]
      obtain ⟨kept, away⟩ := apart op (.head _)
      exact step?_frame first kept away

end run

end SourceTable

/-! ### A small table

Two columns, keyed by the first; the second is wide enough to be TOASTed. -/

namespace Sample

def layout : Layout where
  cols := ["id", "body"]
  oids := [23, 25]
  keyCols := ["id"]
  keyIdx := [0]
  cols_nodup := by decide
  keyIdx_spec := .cons rfl .nil

/-- The row with a one-digit key and a one-byte body. -/
def row (id body : UInt8) : List Cell := [.text [48 + id], .text [body]]

def image (id body : UInt8) : Tuple := .fromCells (row id body)

/-- A new image whose body was not shipped. -/
def masked (id : UInt8) : Tuple := .fromCells [.text [48 + id], .unchangedToast]

def key (id : UInt8) : Key := [[48 + id]]

theorem isRow (id body : UInt8) : layout.IsRow (key id) (row id body) :=
  ⟨rfl, by simp [row], rfl⟩

/-- The table holding the row `1`. -/
def one : SourceTable layout := (SourceTable.empty layout).put (key 1) _ (isRow 1 10)

/-- Row `1` moves to key `2` without its body, and a new row takes key `1`. -/
def moveThenReuse : List (Nat × StreamOp) :=
  [(100, .update (some (image 1 10)) (masked 2) false), (100, .insert (image 1 11))]

example : (one.run? (moveThenReuse.map Prod.snd)).map (fun S => (S.rows (key 1), S.rows (key 2))) =
    some (some (row 1 11), some (row 2 10)) := by decide

end Sample

end Apitap
