import Apitap.Logbased.CollapseMeaning

/-!
# Windows under a deferrable key

Where the key is only checked at commit, two rows may sit at one key inside a
transaction, and a delete, an update or a key move is about one of them: the one
its full old image spells. The collapser keeps one image per key and tells two
rows apart in one place only, when a whole new image leaves a key that has not
gone to the tail. Everywhere else the row it last wrote at the key is taken for
the row the event is about.

So what the collapser holds of a key is the row last written there, until
something it takes for that row goes. `Undisturbed` says of a key's history that
nothing did; it is exactly when the window keeps the row.
-/

namespace Apitap

open Foundation

/-- A source table whose rows may share a key, in no particular order. -/
structure DeferredTable (l : Layout) where
  rows : List (List Cell)
  whole : ∀ r ∈ rows, ∃ k, l.IsRow k r

namespace DeferredTable

variable {l : Layout}

def empty (l : Layout) : DeferredTable l := ⟨[], fun _ mem => nomatch mem⟩

def add (S : DeferredTable l) (k : Key) (r : List Cell) (row : l.IsRow k r) : DeferredTable l where
  rows := r :: S.rows
  whole := List.forall_mem_cons.mpr ⟨⟨k, row⟩, S.whole⟩

def remove (S : DeferredTable l) (r : List Cell) : DeferredTable l where
  rows := S.rows.erase r
  whole r' mem := S.whole r' (List.mem_of_mem_erase mem)

/-- The rows that share a key. -/
def atKey (S : DeferredTable l) (k : Key) : List (List Cell) :=
  S.rows.filter fun r => l.keyTexts r = some k

/-- The keys are distinct, as they are at every commit. -/
def Distinct (S : DeferredTable l) : Prop := (S.rows.map l.keyTexts).Nodup

instance (S : DeferredTable l) : Decidable S.Distinct :=
  inferInstanceAs (Decidable (List.Nodup _))

/-- The table, where the keys are distinct. -/
def table (S : DeferredTable l) : Table := fun k => (S.atKey k).head?

/-- A row added under its key. -/
def file (S : DeferredTable l) {r : List Cell} (new : { k : Key // l.IsRow k r }) :
    DeferredTable l := S.add new.val r new.property

/-- One row event; every old image is the whole row. -/
def step? (S : DeferredTable l) : StreamOp → Option (DeferredTable l)
  | .insert row => (l.rowKey? row.toCells).map S.file
  | .update (some old) row true =>
      if old.toCells ∈ S.rows then
        (l.rowKey? (patch row.toCells old.toCells)).map (S.remove old.toCells).file
      else none
  | .update _ _ _ => none
  | .delete old => if old.toCells ∈ S.rows then some (S.remove old.toCells) else none
  | .truncate => some (empty l)

def run? (S : DeferredTable l) : List StreamOp → Option (DeferredTable l)
  | [] => some S
  | op :: ops => (S.step? op).bind (·.run? ops)

section atKey

variable {S : DeferredTable l} {j k : Key} {r : List Cell}

theorem mem_atKey : r ∈ S.atKey k ↔ r ∈ S.rows ∧ l.keyTexts r = some k := by
  simp [atKey]

theorem atKey_add (row : l.IsRow j r) :
    (S.add j r row).atKey k = if j = k then r :: S.atKey k else S.atKey k := by
  by_cases same : j = k
  · simp [atKey, add, row.key, same]
  · simp [atKey, add, row.key, same]

theorem atKey_remove : (S.remove r).atKey k = (S.atKey k).erase r := by
  rw [atKey, atKey, List.erase_filter, remove]

theorem atKey_remove_of_ne (key : l.keyTexts r = some j) (ne : k ≠ j) :
    (S.remove r).atKey k = S.atKey k := by
  rw [atKey_remove, List.erase_of_not_mem]
  rintro mem
  exact ne (Option.some.inj ((mem_atKey.mp mem).2.symm.trans key))

theorem length_atKey_le (distinct : S.Distinct) (k : Key) : (S.atKey k).length ≤ 1 := by
  have apart : S.rows.Pairwise fun r r' =>
    l.keyTexts r ≠ l.keyTexts r' := List.pairwise_map.mp distinct
  have apart_k := apart.sublist (List.filter_sublist (p := fun r => l.keyTexts r = some k))
  change (S.atKey k).Pairwise _ at apart_k
  match rows : S.atKey k with
  | [] => simp
  | [_] => simp
  | r :: r' :: rest =>
      rw [rows] at apart_k
      have key : l.keyTexts r = some k := (mem_atKey.mp (rows ▸ List.mem_cons_self)).2
      have key' : l.keyTexts r' = some k :=
        (mem_atKey.mp (rows ▸ List.mem_cons_of_mem _ List.mem_cons_self)).2
      exact absurd (key.trans key'.symm) ((List.pairwise_cons.mp apart_k).1 r' List.mem_cons_self)

theorem table_eq_some (distinct : S.Distinct) : S.table k = some r ↔ r ∈ S.atKey k := by
  have one := length_atKey_le distinct k
  rw [table]
  cases rows : S.atKey k with
  | nil => simp
  | cons first rest =>
      have alone : rest = [] := by
        rw [rows] at one
        simpa using one
      simp [alone, eq_comm]

theorem keyed_table (S : DeferredTable l) : S.table.Keyed l := by
  intro k r held
  have mem := mem_atKey.mp (List.mem_of_head? held)
  obtain ⟨j, row⟩ := S.whole r mem.1
  exact Option.some.inj (row.key.symm.trans mem.2) ▸ row

end atKey

end DeferredTable

/-- What one event does to one key. -/
inductive Touch where
  /-- A row was written at the key. -/
  | wrote (k : Key) (r : List Cell)
  /-- A row was deleted at the key. -/
  | deleted (k : Key)
  /-- A row moved off the key. -/
  | left (k : Key) (r : List Cell)
  /-- An image with missing cells came or went here. -/
  | masked (k : Key)

/-- An event's touches, in order. -/
def StreamOp.touches (l : Layout) : StreamOp → List Touch
  | .insert row => ((l.keyTexts row.toCells).map fun k => Touch.wrote k row.toCells).toList
  | .delete old => ((l.keyTexts old.toCells).map Touch.deleted).toList
  | .update (some old) row _ =>
      let new := patch row.toCells old.toCells
      match l.keyTexts old.toCells, l.keyTexts new with
      | some j, some k =>
          (if (keyFromOld l.keyIdx old row).hasToast then [.masked j, .masked k] else []) ++
            (if j = k then [] else [.left j old.toCells]) ++ [.wrote k new]
      | _, _ => []
  | .update none _ _ => []
  | .truncate => []

/-- The history since the last TRUNCATE, newest first. -/
def StreamOp.record (l : Layout) (h : List Touch) (op : StreamOp) : List Touch :=
  if op = .truncate then [] else (op.touches l).reverse ++ h

/-- The row last written at a key. -/
def lastWrite (k : Key) : List Touch → Option (List Cell)
  | [] => none
  | .wrote j r :: h => if j = k then some r else lastWrite k h
  | .deleted _ :: h => lastWrite k h
  | .left _ _ :: h => lastWrite k h
  | .masked _ :: h => lastWrite k h

/-- Since a row was last written at the key, nothing was deleted there, and no
row equal to that one moved off it; nor did any row once a masked image had come
or gone at the key. -/
def Undisturbed (k : Key) : List Touch → Prop
  | [] => True
  | .wrote j _ :: h => j = k ∨ Undisturbed k h
  | .deleted j :: h => (j = k → lastWrite k h = none) ∧ Undisturbed k h
  | .left j r :: h =>
      (j = k → ∀ w, lastWrite k h = some w → w ≠ r ∧ .masked k ∉ h) ∧ Undisturbed k h
  | .masked _ :: h => Undisturbed k h

/-- The event's new image misses cells, its key aside. -/
def StreamOp.isMasked (l : Layout) : StreamOp → Bool
  | .update (some old) row _ => (keyFromOld l.keyIdx old row).hasToast
  | _ => false

/-- A masked image is about the row last written at its key, or the pre-window
row, undisturbed since, and it moves to a free key only. -/
def StreamOp.MaskClear {l : Layout} (S : DeferredTable l) (h : List Touch) (op : StreamOp) : Prop :=
  op.isMasked l = true → ∀ old row full j k, op = .update (some old) row full →
    l.keyTexts old.toCells = some j → l.keyTexts (patch row.toCells old.toCells) = some k →
    Undisturbed j h ∧ (∀ w, lastWrite j h = some w → w = old.toCells) ∧ (k ≠ j → S.atKey k = [])

/-- Every masked image of a run is clear where it stands. -/
def MasksClear {l : Layout} : DeferredTable l → List Touch → List StreamOp → Prop
  | _, _, [] => True
  | S, h, op :: ops =>
      op.MaskClear S h ∧ ∀ S', S.step? op = some S' → MasksClear S' (op.record l h) ops

/-- The history of a run since its last TRUNCATE, newest first. -/
def history (l : Layout) (ops : List StreamOp) : List Touch := ops.foldl (StreamOp.record l) []

theorem undisturbed_of_unwritten {k : Key} {h : List Touch} (unwritten : lastWrite k h = none) :
    Undisturbed k h := by
  induction h with
  | nil => trivial
  | cons t h ih =>
      cases t with
      | wrote j r =>
          by_cases same : j = k
          · exact .inl same
          · rw [lastWrite, if_neg same] at unwritten
            exact .inr (ih unwritten)
      | deleted j => exact ⟨fun _ => unwritten, ih unwritten⟩
      | left j r =>
          have free : lastWrite k h = none := unwritten
          exact ⟨fun _ w held => (by cases free.symm.trans held), ih unwritten⟩
      | masked j => exact ih unwritten

/-- What the collapser remembers of each key, next to the source's rows: `M` is
the table it holds, `pending` and `sticky` are its overlay's. -/
structure Remembers {l : Layout} (S : DeferredTable l) (h : List Touch) (M : Table)
    (pending : Key → Option (List Cell)) (sticky : Set Key) : Prop where
  sub : ∀ k r, M k = some r → r ∈ S.atKey k
  fresh : ∀ k, lastWrite k h = none → S.atKey k = (M k).toList ∧ pending k = none
  held : ∀ k r, lastWrite k h = some r → Undisturbed k h →
    M k = some r ∧ (k ∉ sticky → pending k = some r)
  lost : ∀ k r, lastWrite k h = some r → ¬Undisturbed k h → M k = none
  stuck : ∀ k, k ∈ sticky ↔ .masked k ∈ h

namespace Remembers

variable {l : Layout} {S S' : DeferredTable l} {h : List Touch} {M : Table}
variable {pending pending' : Key → Option (List Cell)} {sticky : Set Key} {j k : Key}
variable {r old : List Cell}

/-- The row last written at a key, or its pre-window row, is held there. -/
theorem holds_known (rem : Remembers S h M pending sticky) (mem : old ∈ S.atKey k)
    (undisturbed : Undisturbed k h) (known : ∀ w, lastWrite k h = some w → w = old) :
    M k = some old := by
  cases written : lastWrite k h with
  | none =>
      rw [(rem.fresh k written).1] at mem
      exact Option.mem_toList.mp mem
  | some w =>
      rw [← known w written]
      exact (rem.held k w written undisturbed).1

theorem wrote (rem : Remembers S h M pending sticky) (others : ∀ i ≠ k, S'.atKey i = S.atKey i)
    (present : r ∈ S'.atKey k) (pending_ne : ∀ i ≠ k, pending' i = pending i)
    (pending_eq : k ∉ sticky → pending' k = some r) :
    Remembers S' (.wrote k r :: h) (Function.update M k (some r)) pending' sticky := by
  refine ⟨?_, ?_, ?_, ?_, ?_⟩
  · intro i r' here
    by_cases same : i = k
    · subst same
      rw [Function.update_self] at here
      exact Option.some.inj here ▸ present
    · rw [Function.update_of_ne same] at here
      rw [others i same]
      exact rem.sub i r' here
  · intro i unwritten
    rw [lastWrite] at unwritten
    split at unwritten
    · cases unwritten
    · rename_i ne
      rw [others i (Ne.symm ne), Function.update_of_ne (Ne.symm ne), pending_ne i (Ne.symm ne)]
      exact rem.fresh i unwritten
  · intro i r' written undisturbed
    rw [lastWrite] at written
    split at written
    · rename_i same
      subst same
      cases written
      exact ⟨Function.update_self .., pending_eq⟩
    · rename_i ne
      rw [Function.update_of_ne (Ne.symm ne), pending_ne i (Ne.symm ne)]
      exact rem.held i r' written (undisturbed.resolve_left ne)
  · intro i r' written disturbed
    rw [lastWrite] at written
    split at written
    · rename_i same
      exact absurd (.inl same) disturbed
    · rename_i ne
      rw [Function.update_of_ne (Ne.symm ne)]
      exact rem.lost i r' written fun undisturbed => disturbed (.inr undisturbed)
  · intro i
    rw [rem.stuck i]
    simp

/-- The row the collapser knows of at `k` goes, and it is taken for `old`: by a
delete, or by a move that cannot tell the two apart. -/
private theorem gone (rem : Remembers S h M pending sticky) {t : Touch}
    (unwritten : ∀ i, lastWrite i (t :: h) = lastWrite i h)
    (others : ∀ i ≠ k, Undisturbed i (t :: h) ↔ Undisturbed i h)
    (disturbs : ∀ w, lastWrite k h = some w → ¬Undisturbed k (t :: h))
    (unmasked : ∀ i, .masked i ∈ t :: h ↔ .masked i ∈ h)
    (there : old ∈ S.atKey k) (pending_ne : ∀ i ≠ k, pending' i = pending i)
    (pending_eq : pending k = none → pending' k = none) :
    Remembers (S.remove old) (t :: h) (Function.update M k none) pending' sticky := by
  have key := (DeferredTable.mem_atKey.mp there).2
  have atKey_ne : ∀ i, i ≠ k → (S.remove old).atKey i = S.atKey i :=
    fun i ne => DeferredTable.atKey_remove_of_ne key ne
  refine ⟨?_, ?_, ?_, ?_, ?_⟩
  · intro i r' here
    by_cases same : i = k
    · rw [same, Function.update_self] at here
      cases here
    · rw [Function.update_of_ne same] at here
      rw [atKey_ne i same]
      exact rem.sub i r' here
  · intro i written
    rw [unwritten] at written
    obtain ⟨rows, unqueued⟩ := rem.fresh i written
    by_cases same : i = k
    · subst same
      rw [rows, Option.mem_toList] at there
      rw [DeferredTable.atKey_remove, rows, there, Function.update_self]
      exact ⟨by simp, pending_eq unqueued⟩
    · rw [atKey_ne i same, Function.update_of_ne same, pending_ne i same]
      exact ⟨rows, unqueued⟩
  · intro i r' written undisturbed
    rw [unwritten] at written
    by_cases same : i = k
    · subst same
      exact absurd undisturbed (disturbs r' written)
    · rw [Function.update_of_ne same, pending_ne i same]
      exact rem.held i r' written ((others i same).mp undisturbed)
  · intro i r' written disturbed
    rw [unwritten] at written
    by_cases same : i = k
    · rw [same, Function.update_self]
    · rw [Function.update_of_ne same]
      exact rem.lost i r' written fun undisturbed => disturbed ((others i same).mpr undisturbed)
  · intro i
    rw [rem.stuck i, unmasked]

theorem deleted (rem : Remembers S h M pending sticky) (there : old ∈ S.atKey k)
    (pending_ne : ∀ i ≠ k, pending' i = pending i) (pending_eq : pending k = none →
      pending' k = none) :
    Remembers (S.remove old) (.deleted k :: h) (Function.update M k none) pending' sticky := by
  refine rem.gone (fun _ => rfl) ?_ ?_ ?_ there pending_ne pending_eq
  · intro i ne
    simp [Undisturbed, Ne.symm ne]
  · rintro w written ⟨undisturbed, _⟩
    rw [undisturbed rfl] at written
    cases written
  · intro i
    simp

/-- A row that moves off is the one known there, or cannot be told from it. -/
theorem left_known (rem : Remembers S h M pending sticky) (there : old ∈ S.atKey k)
    (known : k ∉ sticky → ∀ w, pending k = some w → w = old)
    (pending_ne : ∀ i ≠ k, pending' i = pending i) (pending_eq : pending k = none →
      pending' k = none) :
    Remembers (S.remove old) (.left k old :: h) (Function.update M k none) pending' sticky := by
  refine rem.gone (fun _ => rfl) ?_ ?_ ?_ there pending_ne pending_eq
  · intro i ne
    simp [Undisturbed, Ne.symm ne]
  · rintro w written ⟨undisturbed, before⟩
    obtain ⟨differs, unmasked⟩ := undisturbed rfl w written
    have free : k ∉ sticky := fun stuck => unmasked ((rem.stuck k).mp stuck)
    exact differs (known free w ((rem.held k w written before).2 free))
  · intro i
    simp

/-- A row that moves off and is told from the one queued there. -/
theorem left_other (rem : Remembers S h M pending sticky) (there : old ∈ S.atKey k)
    (free : k ∉ sticky) (queued : pending k = some r) (landed : M k = some r) (differs : r ≠ old) :
    Remembers (S.remove old) (.left k old :: h) M pending sticky := by
  have key := (DeferredTable.mem_atKey.mp there).2
  have unmasked : .masked k ∉ h := fun mem => free ((rem.stuck k).mpr mem)
  have written_k : lastWrite k h = some r := by
    cases written : lastWrite k h with
    | none =>
        rw [(rem.fresh k written).2] at queued
        cases queued
    | some w =>
        by_cases undisturbed : Undisturbed k h
        · rw [← queued, (rem.held k w written undisturbed).2 free]
        · rw [rem.lost k w written undisturbed] at landed
          cases landed
  have undisturbed_iff : ∀ i, Undisturbed i (.left k old :: h) ↔ Undisturbed i h := by
    intro i
    refine ⟨And.right, fun undisturbed => ⟨?_, undisturbed⟩⟩
    rintro rfl w written
    rw [written_k, Option.some.injEq] at written
    exact ⟨written ▸ differs, unmasked⟩
  refine ⟨?_, ?_, ?_, ?_, ?_⟩
  · intro i r' here
    rw [DeferredTable.atKey_remove]
    by_cases same : i = k
    · subst same
      rw [landed] at here
      cases here
      exact (List.mem_erase_of_ne differs).mpr (rem.sub i r landed)
    · rw [← DeferredTable.atKey_remove, DeferredTable.atKey_remove_of_ne key same]
      exact rem.sub i r' here
  · intro i unwritten
    have ne : i ≠ k := by
      rintro rfl
      rw [lastWrite, written_k] at unwritten
      cases unwritten
    rw [DeferredTable.atKey_remove_of_ne key ne]
    exact rem.fresh i unwritten
  · intro i r' written undisturbed
    exact rem.held i r' written ((undisturbed_iff i).mp undisturbed)
  · intro i r' written disturbed
    exact rem.lost i r' written fun undisturbed => disturbed ((undisturbed_iff i).mpr undisturbed)
  · intro i
    rw [rem.stuck i]
    simp

theorem masked (rem : Remembers S h M pending sticky) (k : Key) :
    Remembers S (.masked k :: h) M pending (insert k sticky) := by
  refine ⟨rem.sub, rem.fresh, ?_, rem.lost, ?_⟩
  · intro i r' written undisturbed
    obtain ⟨here, queued⟩ := rem.held i r' written undisturbed
    exact ⟨here, fun free => queued fun stuck => free (Set.mem_insert_of_mem _ stuck)⟩
  · intro i
    simp [rem.stuck i]

end Remembers

/-- The collapser after the history `h`, landed over `T`: it holds the table `M`. -/
structure Follows {l : Layout} (T : Table) (c : Collapser) (S : DeferredTable l) (h : List Touch)
    (M : Table) : Prop where
  sound : c.Sound
  layout : c.layout = l
  named : c.overlay.Named (ResidueOp.keys l)
  means : c.overlay.meaning (ResidueOp.step l) T = .ok M
  remembers : Remembers S h M c.overlay.pending c.overlay.sticky

namespace Follows

variable {l : Layout} {T : Table} {c : Collapser} {S S' : DeferredTable l} {h : List Touch}
variable {M : Table} {j k : Key} {row old : Tuple}

theorem standsFor (follows : Follows T c S h M) : c.StandsFor l c.overlay :=
  ⟨follows.sound, follows.layout, rfl⟩

theorem kept (follows : Follows T c S h M) : c.overlay.Kept (ResidueOp.step l) :=
  follows.named.kept (ResidueOp.confined_step l)

private theorem of_standsFor {o : Overlay Key (List Cell) ResidueOp} (stands : c.StandsFor l o)
    (named : o.Named (ResidueOp.keys l)) (means : o.meaning (ResidueOp.step l) T = .ok M)
    (remembers : Remembers S h M o.pending o.sticky) : Follows T c S h M :=
  ⟨stands.sound, stands.layout, stands.overlay ▸ named, stands.overlay ▸ means,
    stands.overlay ▸ remembers⟩

theorem new (S : DeferredTable l) (distinct : S.Distinct) :
    Follows S.table (Collapser.new l) S [] S.table := by
  refine of_standsFor (Collapser.standsFor_new l) .empty Overlay.meaning_empty ⟨?_, ?_, ?_, ?_, ?_⟩
  · exact fun k r held => (DeferredTable.table_eq_some distinct).mp held
  · refine fun k _ => ⟨?_, rfl⟩
    have one := DeferredTable.length_atKey_le distinct k
    rw [DeferredTable.table]
    cases rows : S.atKey k with
    | nil => rfl
    | cons first rest =>
        have alone : rest = [] := by
          rw [rows] at one
          simpa using one
        simp [alone]
  · exact fun k r written => nomatch written
  · exact fun k r written => nomatch written
  · intro k
    simp [Overlay.empty]

theorem at' (follows : Follows T c S h M) (pos : Nat) : Follows T (c.at' pos) S h M :=
  of_standsFor (follows.standsFor.at' pos) follows.named follows.means follows.remembers

theorem count (follows : Follows T c S h M) (n : Nat) : Follows T { c with events := n } S h M :=
  of_standsFor (follows.standsFor.count n) follows.named follows.means follows.remembers

theorem truncate (follows : Follows T c S h M) :
    Follows T c.truncate (DeferredTable.empty l) [] fun _ => none := by
  refine of_standsFor follows.standsFor.truncate .clear Overlay.meaning_clear ⟨?_, ?_, ?_, ?_, ?_⟩
  · exact fun k r held => (by cases held)
  · exact fun k _ => ⟨rfl, rfl⟩
  · exact fun k r written => (by cases written)
  · exact fun k r written => (by cases written)
  · intro k
    simp [Overlay.clear, Overlay.empty]

theorem putDelete (follows : Follows T c S h M) (there : old.toCells ∈ S.atKey k) :
    Follows T (c.putDelete (K.ofKey k)) (S.remove old.toCells) (.deleted k :: h)
      (Function.update M k none) := by
  refine of_standsFor (follows.standsFor.putDelete k) (follows.named.erase rfl)
    (Overlay.meaning_erase follows.kept follows.means rfl) ?_
  rw [Overlay.sticky_erase]
  exact follows.remembers.deleted there (fun _ ne => Overlay.pending_erase_of_ne ne)
    Overlay.pending_erase_of_none

theorem putImage_whole (follows : Follows T c S h M) (isRow : l.IsRow k row.toCells)
    (others : ∀ i ≠ k, S'.atKey i = S.atKey i) (present : row.toCells ∈ S'.atKey k) :
    Follows T (c.putImage (K.ofKey k) row) S' (.wrote k row.toCells :: h)
      (Function.update M k (some row.toCells)) := by
  refine of_standsFor (follows.standsFor.putImage_whole isRow)
    (follows.named.write (ResidueOp.keys_upsert isRow.key))
    (Overlay.meaning_write follows.kept follows.means (ResidueOp.step_upsert isRow.key)) ?_
  rw [Overlay.sticky_write]
  exact follows.remembers.wrote others present (fun _ ne => Overlay.pending_write_of_ne ne)
    Overlay.pending_write_self

/-- A whole image leaves its old key: the queued row stays where the full old
image tells the two apart, and goes where it does not. -/
theorem killOld (follows : Follows T c S h M) (there : old.toCells ∈ S.atKey k) :
    ∃ M', Follows T (c.killOld true old (K.ofKey k)) (S.remove old.toCells)
      (.left k old.toCells :: h) M' := by
  by_cases other : k ∉ c.overlay.sticky ∧
      ∃ r, c.overlay.pending k = some r ∧ r ≠ old.toCells
  · obtain ⟨free, r, queued, differs⟩ := other
    have landed : M k = some r := by
      rw [Overlay.meaning_of_free follows.kept follows.means free, Overlay.base_of_pending queued]
    exact ⟨M, of_standsFor (follows.standsFor.killOld_other free queued differs) follows.named
      ((Overlay.meaning_doom queued).trans follows.means)
      (follows.remembers.left_other there free queued landed differs)⟩
  · have known : k ∉ c.overlay.sticky → ∀ r, c.overlay.pending k = some r → r = old.toCells := by
      intro free r queued
      by_contra differs
      exact other ⟨free, r, queued, differs⟩
    refine ⟨_, of_standsFor (follows.standsFor.killOld_known fun _ => known)
      (follows.named.erase rfl) (Overlay.meaning_erase follows.kept follows.means rfl) ?_⟩
    rw [Overlay.sticky_erase]
    exact follows.remembers.left_known there known (fun _ ne => Overlay.pending_erase_of_ne ne)
      Overlay.pending_erase_of_none

/-- A masked image that keeps its key, over the row known there. -/
theorem putImage_masked (follows : Follows T c S h M) (toast : row.hasToast = true)
    (held : M k = some old.toCells) (fits : (ResidueOp.maskedUpdate k row.toCells).Fits l)
    (others : ∀ i ≠ k, S'.atKey i = S.atKey i)
    (present : patch row.toCells old.toCells ∈ S'.atKey k) :
    ∃ M', Follows T (c.putImage (K.ofKey k) row) S'
      (.wrote k (patch row.toCells old.toCells) :: .masked k :: .masked k :: h) M' := by
  refine ⟨Function.update M k (some (patch row.toCells old.toCells)),
    of_standsFor (follows.standsFor.putImage_masked toast fits) (follows.named.defer rfl) ?_ ?_⟩
  · rw [Overlay.meaning_defer, follows.means]
    exact ResidueOp.step_maskedUpdate (l := l) held
  · have stuck := (follows.remembers.masked k).masked k
    rw [Set.insert_eq_of_mem (Set.mem_insert ..)] at stuck
    exact stuck.wrote others present (fun _ _ => rfl) fun free => absurd (Set.mem_insert ..) free

/-- A masked image that leaves its key, over the row known there, for a free one. -/
theorem moveMasked (follows : Follows T c S h M) (ne : k ≠ j)
    (there : old.toCells ∈ S.atKey j) (held : M j = some old.toCells) (free : S.atKey k = [])
    (fits : (ResidueOp.rekey j k row.toCells).Fits l)
    (others : ∀ i ≠ k, S'.atKey i = (S.remove old.toCells).atKey i)
    (present : patch row.toCells old.toCells ∈ S'.atKey k) :
    ∃ M', Follows T (c.moveMasked (K.ofKey j) (K.ofKey k) row) S'
      (.wrote k (patch row.toCells old.toCells) :: .left j old.toCells :: .masked k :: .masked j ::
        h) M' := by
  have unheld : M k = none := by
    rw [Option.eq_none_iff_forall_not_mem]
    intro r here
    have mem := follows.remembers.sub k r here
    rw [free] at mem
    cases mem
  refine ⟨Function.update (Function.update M j none) k (some (patch row.toCells old.toCells)),
    of_standsFor (follows.standsFor.moveMasked ne fits) (follows.named.defer rfl) ?_ ?_⟩
  · rw [Overlay.meaning_defer, follows.means]
    exact ResidueOp.step_rekey (l := l) held unheld
  · have stuck := (follows.remembers.masked j).masked k
    have moved := stuck.left_known there (fun free => absurd (Set.mem_insert_of_mem _
      (Set.mem_insert ..)) free) (fun _ _ => rfl) id
    have same : insert k (insert j c.overlay.sticky) =
        (c.overlay.defer (.rekey j k row.toCells) {j, k}).sticky := by
      rw [Overlay.defer, Overlay.stick, Set.insert_union, Set.singleton_union, Set.insert_comm]
    rw [← same]
    exact moved.wrote others present (fun _ _ => rfl) fun free => absurd (Set.mem_insert ..) free

/-- Landing an update of the row its full old image spells. -/
theorem update (follows : Follows T c S h M) (there : old.toCells ∈ S.rows)
    (isRow : l.IsRow k (patch row.toCells old.toCells))
    (clear : (StreamOp.update (some old) row true).MaskClear S h) :
    ∃ c' M', c.updateImage (some old) true row = .ok c' ∧
      Follows T c' ((S.remove old.toCells).add k _ isRow)
        ((StreamOp.update (some old) row true).record l h) M' := by
  obtain ⟨j, isRowOld⟩ := S.whole _ there
  have mem : old.toCells ∈ S.atKey j := DeferredTable.mem_atKey.mpr ⟨there, isRowOld.key⟩
  obtain ⟨patched, key⟩ := Collapser.keyFromOld_spec isRowOld.key isRowOld.key isRow.key
  have width : (keyFromOld l.keyIdx old row).toCells.length = l.cols.length := by
    rw [← length_patch _ old.toCells, patched, isRow.width]
  have counted := follows.count (c.events + 1)
  obtain rfl := follows.layout
  have added : ∀ i ≠ k, ((S.remove old.toCells).add k _ isRow).atKey i =
      (S.remove old.toCells).atKey i := by
    intro i ne
    rw [DeferredTable.atKey_add, if_neg (Ne.symm ne)]
  have present : ∀ r, r = patch row.toCells old.toCells →
      r ∈ ((S.remove old.toCells).add k _ isRow).atKey k := by
    rintro r rfl
    rw [DeferredTable.atKey_add, if_pos rfl]
    exact List.mem_cons_self
  have whole_row : (keyFromOld c.layout.keyIdx old row).hasToast = false →
      (keyFromOld c.layout.keyIdx old row).toCells = patch row.toCells old.toCells := by
    intro whole
    rw [← Bool.not_eq_true, Tuple.hasToast_iff] at whole
    rw [← patched, patch_of_whole _ whole]
  suffices landed : ∃ M', Follows T
      (let c' := { c with events := c.events + 1 }
      let row' := keyFromOld c.layout.keyIdx old row
      if j = k then c'.putImage (K.ofKey k) row'
      else if row'.hasToast then c'.moveMasked (K.ofKey j) (K.ofKey k) row'
      else (c'.killOld true old (K.ofKey j)).putImage (K.ofKey k) row')
      ((S.remove old.toCells).add k _ isRow)
      ((StreamOp.update (some old) row true).record c.layout h) M' by
    obtain ⟨M', follows'⟩ := landed
    exact ⟨_, M', Collapser.updateImage_some c isRowOld.key key, follows'⟩
  simp only [StreamOp.record, StreamOp.touches, isRowOld.key, isRow.key, reduceCtorEq, if_false]
  cases toast : (keyFromOld c.layout.keyIdx old row).hasToast with
  | true =>
      obtain ⟨undisturbed, known, free⟩ := clear toast old row true j k rfl isRowOld.key isRow.key
      have held := follows.remembers.holds_known mem undisturbed known
      by_cases same : j = k
      · subst same
        have others : ∀ i ≠ j, ((S.remove old.toCells).add j _ isRow).atKey i = S.atKey i :=
          fun i ne => (added i ne).trans (DeferredTable.atKey_remove_of_ne isRowOld.key ne)
        simpa [patched] using counted.putImage_masked toast held ⟨width, key⟩ others
          (present _ patched)
      · simpa [same, patched] using counted.moveMasked (Ne.symm same) mem held (free (Ne.symm same))
          ⟨width, key⟩ added (present _ patched)
  | false =>
      have same_row := whole_row toast
      have isRow' : c.layout.IsRow k (keyFromOld c.layout.keyIdx old row).toCells :=
        same_row ▸ isRow
      by_cases same : j = k
      · subst same
        have others : ∀ i ≠ j, ((S.remove old.toCells).add j _ isRow).atKey i = S.atKey i :=
          fun i ne => (added i ne).trans (DeferredTable.atKey_remove_of_ne isRowOld.key ne)
        have landed := counted.putImage_whole isRow' others (present _ same_row)
        rw [same_row] at landed
        exact ⟨_, by simpa using landed⟩
      · obtain ⟨M₁, left⟩ := counted.killOld mem
        have landed := left.putImage_whole isRow' added (present _ same_row)
        rw [same_row] at landed
        exact ⟨_, by simpa [same] using landed⟩

/-- Landing a legal event whose masked image is clear. -/
theorem land (follows : Follows T c S h M) (pos : Nat) {op : StreamOp}
    (legal : S.step? op = some S') (clear : op.MaskClear S h) :
    ∃ c' M', c.land pos op = .ok c' ∧ Follows T c' S' (op.record l h) M' := by
  have follows := follows.at' pos
  cases op with
  | insert row =>
      simp only [DeferredTable.step?, Option.map_eq_some_iff] at legal
      obtain ⟨⟨k, isRow⟩, _, rfl⟩ := legal
      obtain rfl := follows.layout
      have others : ∀ i ≠ k, (S.add k _ isRow).atKey i = S.atKey i := by
        intro i ne
        rw [DeferredTable.atKey_add, if_neg (Ne.symm ne)]
      have present : row.toCells ∈ (S.add k _ isRow).atKey k := by
        rw [DeferredTable.atKey_add, if_pos rfl]
        exact List.mem_cons_self
      have landed := (follows.count ((c.at' pos).events + 1)).putImage_whole isRow others present
      refine ⟨_, Function.update M k (some row.toCells), Collapser.insert_eq _ isRow, ?_⟩
      simpa [DeferredTable.file, StreamOp.record, StreamOp.touches, isRow.key] using landed
  | update old row full =>
      cases old with
      | none => cases legal
      | some old =>
          cases full with
          | false => cases legal
          | true =>
              simp only [DeferredTable.step?] at legal
              split at legal
              · rename_i there
                obtain ⟨⟨k, isRow⟩, _, rfl⟩ := Option.map_eq_some_iff.mp legal
                exact follows.update there isRow clear
              · cases legal
  | delete old =>
      simp only [DeferredTable.step?] at legal
      split at legal
      · rename_i there
        cases legal
        obtain ⟨k, isRow⟩ := S.whole _ there
        obtain rfl := follows.layout
        have landed := (follows.count ((c.at' pos).events + 1)).putDelete
          (DeferredTable.mem_atKey.mpr ⟨there, isRow.key⟩)
        refine ⟨{ c.at' pos with events := (c.at' pos).events + 1 }.putDelete (K.ofKey k),
          Function.update M k none, ?_, ?_⟩
        · simp only [Collapser.land, Collapser.delete, Collapser.keyOfOld,
            Collapser.keyOfRow_eq isRow.key, Except.map]
        · simpa [StreamOp.record, StreamOp.touches, isRow.key] using landed
      · cases legal
  | truncate =>
      cases legal
      exact ⟨_, _, rfl, by simpa [StreamOp.record] using follows.truncate⟩

theorem landAll {S : DeferredTable l} (follows : Follows T c S h M) {ops : List (Nat × StreamOp)}
    (legal : S.run? (ops.map Prod.snd) = some S') (clear : MasksClear S h (ops.map Prod.snd)) :
    ∃ c' M', c.landAll ops = .ok c' ∧
      Follows T c' S' ((ops.map Prod.snd).foldl (StreamOp.record l) h) M' := by
  induction ops generalizing c S h M with
  | nil =>
      cases legal
      exact ⟨c, M, rfl, follows⟩
  | cons op ops ih =>
      obtain ⟨S₁, first, rest⟩ := Option.bind_eq_some_iff.mp legal
      obtain ⟨c₁, M₁, landed, follows₁⟩ := follows.land op.1 first clear.1
      obtain ⟨c', M', landed', follows'⟩ := ih follows₁ rest (clear.2 S₁ first)
      refine ⟨c', M', ?_, follows'⟩
      simp only [Collapser.landAll, landed, Except.bind, landed']

/-- At the end of a window the collapser holds the table exactly when every key
with a row is undisturbed. -/
theorem eq_table_iff (follows : Follows T c S h M) (distinct : S.Distinct) :
    M = S.table ↔ ∀ k, S.atKey k ≠ [] → Undisturbed k h := by
  have rem := follows.remembers
  constructor
  · rintro rfl k present
    by_contra disturbed
    cases written : lastWrite k h with
    | none => exact disturbed (undisturbed_of_unwritten written)
    | some w =>
        have gone := rem.lost k w written disturbed
        exact present (List.head?_eq_none_iff.mp gone)
  · intro undisturbed
    funext k
    cases rows : S.atKey k with
    | nil =>
        have none_there : S.table k = none := by rw [DeferredTable.table, rows, List.head?_nil]
        rw [none_there, Option.eq_none_iff_forall_not_mem]
        intro r here
        have mem := rem.sub k r here
        rw [rows] at mem
        cases mem
    | cons first rest =>
        have at_k : S.table k = some first := by
          rw [DeferredTable.table, rows, List.head?_cons]
        have mem := (DeferredTable.table_eq_some distinct).mp at_k
        have clear := undisturbed k (by simp [rows])
        cases written : lastWrite k h with
        | none =>
            rw [(rem.fresh k written).1, Option.mem_toList] at mem
            rw [at_k]
            exact mem
        | some w =>
            have here := (rem.held k w written clear).1
            rw [here, (DeferredTable.table_eq_some distinct).mpr (rem.sub k w here)]

end Follows

theorem masksClear_of_unmasked {l : Layout} {S : DeferredTable l} {h : List Touch}
    {ops : List StreamOp} (unmasked : ∀ op ∈ ops, op.isMasked l = false) : MasksClear S h ops := by
  induction ops generalizing S h with
  | nil => trivial
  | cons op ops ih =>
      refine ⟨fun masked => ?_, fun S' _ => ih fun op' mem => unmasked op' (.tail _ mem)⟩
      rw [unmasked op (.head _)] at masked
      cases masked

/-- Every row the source ends with can be told from the rows that left its key. -/
def KeepsRows {l : Layout} (S S' : DeferredTable l) (ops : List StreamOp) : Prop :=
  MasksClear S [] ops ∧ ∀ k, S'.atKey k ≠ [] → Undisturbed k (history l ops)

/-- A window whose masked images are clear lands the source's rows exactly when
every key with a row is undisturbed. -/
theorem Collapser.lands_iff_undisturbed {l : Layout} {S S' : DeferredTable l}
    {events : List (Nat × StreamOp)} (destTable : String)
    (legal : S.run? (events.map Prod.snd) = some S') (distinct : S.Distinct)
    (distinct' : S'.Distinct) (clear : MasksClear S [] (events.map Prod.snd)) :
    (∃ c w, (Collapser.new l).landAll events = .ok c ∧ c.seal destTable = .ok w ∧
      DestPg.applyUnit destTable (some w) S.table = .ok (c.events, S'.table)) ↔
      ∀ k, S'.atKey k ≠ [] → Undisturbed k (history l (events.map Prod.snd)) := by
  obtain ⟨c, M, landed, follows⟩ := (Follows.new S distinct).landAll legal clear
  rw [history, ← follows.eq_table_iff distinct']
  obtain rfl := follows.layout
  have applied : DestPg.applyUnit destTable _ S.table = .ok (c.events, M) :=
    applyUnit_of_meaning follows.sound S.keyed_table follows.means
  have sealed := follows.sound.seal destTable
  constructor
  · rintro ⟨c', w, landed', sealed', applied'⟩
    rw [landed] at landed'
    cases landed'
    rw [sealed] at sealed'
    cases sealed'
    rw [applied] at applied'
    exact congrArg Prod.snd (Except.ok.inj applied')
  · rintro rfl
    exact ⟨c, _, landed, sealed, applied⟩

/-- Under a deferrable key the window lands the source's final rows whenever
every row that is left at the end, and every row a masked image is about, can be
told from the rows that shared its key; without masked images, only then. -/
theorem Collapser.deferred_key_keeps_rows {l : Layout} {S S' : DeferredTable l}
    {events : List (Nat × StreamOp)} (destTable : String)
    (legal : S.run? (events.map Prod.snd) = some S') (distinct : S.Distinct)
    (distinct' : S'.Distinct) :
    let lands := ∃ c w, (Collapser.new l).landAll events = .ok c ∧ c.seal destTable = .ok w ∧
      DestPg.applyUnit destTable (some w) S.table = .ok (c.events, S'.table)
    (KeepsRows S S' (events.map Prod.snd) → lands) ∧
      ((∀ op ∈ events.map Prod.snd, op.isMasked l = false) →
        (lands ↔ KeepsRows S S' (events.map Prod.snd))) := by
  intro lands
  refine ⟨fun keeps => (lands_iff_undisturbed destTable legal distinct distinct'
    keeps.1).mpr keeps.2,
    fun unmasked => ?_⟩
  have clear := masksClear_of_unmasked (S := S) (h := []) unmasked
  rw [KeepsRows, and_iff_right clear]
  exact lands_iff_undisturbed destTable legal distinct distinct' clear

namespace Sample

/-- The rows `1` and `2`, under a key checked at commit. -/
def pair : DeferredTable layout where
  rows := [row 1 10, row 2 20]
  whole := by simpa using ⟨⟨_, isRow 1 10⟩, _, isRow 2 20⟩

/-- The two rows swap their keys. -/
def swap : List (Nat × StreamOp) :=
  [(100, .update (some (image 1 10)) (image 2 10) true),
    (100, .update (some (image 2 20)) (image 1 20) true)]

/-- Row `1` moves onto key `2`, and the row that was there is deleted. -/
def moveThenDelete : List (Nat × StreamOp) :=
  [(100, .update (some (image 1 10)) (image 2 10) true), (100, .delete (image 2 20))]

end Sample

/-- A swap keeps both rows. -/
theorem Collapser.deferred_key_keeps_rows_swap :
    let S' := (Sample.pair.run? (Sample.swap.map Prod.snd)).get (by decide)
    let lands := ∃ c w, (Collapser.new Sample.layout).landAll Sample.swap = .ok c ∧
      c.seal "public.t" = .ok w ∧
      DestPg.applyUnit "public.t" (some w) Sample.pair.table = .ok (c.events, S'.table)
    (KeepsRows Sample.pair S' (Sample.swap.map Prod.snd) → lands) ∧
      ((∀ op ∈ Sample.swap.map Prod.snd, op.isMasked Sample.layout = false) →
        (lands ↔ KeepsRows Sample.pair S' (Sample.swap.map Prod.snd))) :=
  deferred_key_keeps_rows "public.t" (Option.some_get _).symm (by decide) (by decide)

/-- The row that moved onto key `2` is lost when the row that was there is
deleted: the delete is taken for the one just written. -/
theorem Collapser.deferred_delete_loses_moved_row :
    ∃ S', Sample.pair.run? (Sample.moveThenDelete.map Prod.snd) = some S' ∧
      Sample.pair.Distinct ∧ S'.Distinct ∧ S'.table (Sample.key 2) = some (Sample.row 2 10) ∧
      ∃ c w T', (Collapser.new Sample.layout).landAll Sample.moveThenDelete = .ok c ∧
        c.seal "public.t" = .ok w ∧
        DestPg.applyUnit "public.t" (some w) Sample.pair.table = .ok (c.events, T') ∧
        T' (Sample.key 2) = none := by
  refine ⟨_, rfl, by decide, by decide, by decide, _, _, _, rfl, rfl, rfl, by decide⟩

end Apitap
