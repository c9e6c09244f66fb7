import Apitap.Logbased.CollapseOverlay
import Apitap.Logbased.DestPg

/-!
# Collapse preserves meaning

A legal row event is a step of the source table, and landing it in the collapser
is the same step on what the collapser's overlay means over the pre-window
table. The run of a window is that step again and again; what the destination
does with the sealed window is the overlay's meaning.
-/

namespace Apitap

open Foundation DestPg Collapser

section phases

variable {l : Layout}

theorem rowKeyRefs_eq {cells : List Cell} {k : Key} (key : l.keyTexts cells = some k) :
    rowKeyRefs l.keyIdx cells = k := by
  have texts := Layout.keyTexts_eq_some_iff.mp key
  unfold rowKeyRefs
  clear key
  generalize l.keyIdx = idx at texts
  induction texts with
  | nil => rfl
  | cons here rest ih => rw [List.map_cons, ih, textAt_eq_some.mpr here, Option.getD_some]

/-- A plain INSERT of rows whose keys are free and distinct lands them all. -/
theorem insertRows_spec {rows : List (List Cell)} {T : Table}
    (keyed : ∀ r ∈ rows, ∃ k, l.keyTexts r = some k ∧ T k = none)
    (distinct : rows.Pairwise fun r r' => l.keyTexts r ≠ l.keyTexts r') :
    rows.foldlM (insertRow l) T =
      .ok fun k => (rows.find? fun r => l.keyTexts r = some k).or (T k) := by
  induction rows generalizing T with
  | nil => rfl
  | cons r rows ih =>
      obtain ⟨others, rest⟩ := List.pairwise_cons.mp distinct
      obtain ⟨k, key, free⟩ := keyed r (.head _)
      have inserted : insertRow l T r = .ok (Function.update T k (some r)) := by
        simp only [insertRow, key, free, if_true]
      have keyed' : ∀ r' ∈ rows, ∃ j, l.keyTexts r' = some j ∧
          Function.update T k (some r) j = none := by
        intro r' mem
        obtain ⟨j, key', free'⟩ := keyed r' (.tail _ mem)
        refine ⟨j, key', ?_⟩
        rw [Function.update_of_ne, free']
        rintro rfl
        exact others r' mem (key.trans key'.symm)
      rw [List.foldlM_cons, inserted]
      change rows.foldlM (insertRow l) _ = _
      rw [ih keyed' rest]
      congr 1
      funext j
      by_cases at_k : j = k
      · subst at_k
        have gone : rows.find? (fun r' => l.keyTexts r' = some j) = none := by
          rw [List.find?_eq_none]
          intro r' mem
          simpa [key] using Ne.symm (others r' mem)
        simp [gone, key]
      · have ne : l.keyTexts r ≠ some j := by
          rw [key]
          simpa [eq_comm] using at_k
        rw [Function.update_of_ne at_k, List.find?_cons_of_neg (by simpa using ne)]

theorem mapM_renderCopyRow {rows : List Tuple} (whole : ∀ r ∈ rows, .unchangedToast ∉ r.toCells) :
    rows.mapM renderCopyRow = .ok (rows.map Tuple.toCells) := by
  induction rows with
  | nil => rfl
  | cons r rows ih =>
      have none_r : r.hasToast = false := by
        rw [← Bool.not_eq_true, Tuple.hasToast_iff]
        exact whole r (.head _)
      rw [List.mapM_cons, ih fun r' mem => whole r' (.tail _ mem)]
      simp [renderCopyRow, none_r, pure, Except.pure, bind, Except.bind]

theorem length_deletedLater (ops : List ResidueOp) : (deletedLater ops).1.length = ops.length := by
  induction ops with
  | nil => rfl
  | cons op ops ih => cases op <;> simp [deletedLater, ih]

/-- The upserts' keys are the ones with a pending row. -/
theorem Collapser.Sound.mem_upsertKeys {c : Collapser} (sound : c.Sound) {k : Key} :
    k ∈ c.finish.upserts.map (fun row => rowKeyRefs c.layout.keyIdx row.toCells) ↔
      c.overlay.pending k ≠ none := by
  rw [← Option.isSome_iff_ne_none, overlay, List.find?_isSome, ← upserts_finish]
  simp only [List.mem_map, exists_exists_and_eq_and, decide_eq_true_eq]
  refine exists_congr fun row => and_congr_right fun mem => ?_
  obtain ⟨j, isRow⟩ := sound.isRow_of_mem_images (List.mem_map_of_mem mem)
  rw [rowKeyRefs_eq isRow.key, isRow.key, Option.some.injEq]

/-- The delete phase and the insert phase together land the pending values. -/
theorem setPhase_eq_base {c : Collapser} (sound : c.Sound) (T : Table) :
    c.images.foldlM (insertRow c.layout) (deleteKeys
      (c.finish.deletes ++ c.finish.upserts.map fun row => rowKeyRefs c.layout.keyIdx row.toCells)
      (if c.finish.truncate = true then fun _ => none else T)) = .ok (c.overlay.base T) := by
  generalize started : (if c.finish.truncate = true then fun _ => none else T) = start
  have upKeys := fun k => sound.mem_upsertKeys (k := k)
  rw [insertRows_spec ?_ sound.pairwise_images]
  · congr 1
    funext k
    cases pending : c.overlay.pending k with
    | some r =>
        rw [Overlay.base_of_pending pending]
        change (c.overlay.pending k).or _ = _
        rw [pending, Option.some_or]
    | none =>
        change (c.overlay.pending k).or _ = _
        have unqueued := (upKeys k).not.mpr (not_not.mpr pending)
        rw [pending, Option.none_or]
        by_cases gone : c.overlay.cleared = true ∨ k ∈ c.overlay.dropped
        · rw [Overlay.base_of_gone pending gone]
          rcases gone with cleared | dropped
          · have emptied : start k = none := by
              rw [← started, if_pos (show c.finish.truncate = true from cleared)]
            simp [deleteKeys, emptied]
          · simp [deleteKeys, sound.mem_deletes.mpr dropped]
        · rw [Overlay.base_of_untouched pending gone]
          rw [not_or] at gone
          have kept : start k = T k := by
            rw [← started, if_neg (show ¬c.finish.truncate = true from gone.1)]
          have undeleted := sound.mem_deletes.not.mpr gone.2
          simp only [deleteKeys, List.mem_append, undeleted, unqueued, or_self, if_false, kept]
  · intro r mem
    obtain ⟨k, isRow⟩ := sound.isRow_of_mem_images mem
    refine ⟨k, isRow.key, ?_⟩
    have queued : c.overlay.pending k ≠ none := by
      rw [← Option.isSome_iff_ne_none, overlay, List.find?_isSome]
      exact ⟨r, mem, by simpa using isRow.key⟩
    simp only [deleteKeys, List.mem_append, (upKeys k).mpr queued, or_true, if_true]

/-- The table the tail starts from is keyed when the pre-window one is. -/
theorem Collapser.Sound.keyed_base {c : Collapser} (sound : c.Sound) {T : Table}
    (keyed : T.Keyed c.layout) : Table.Keyed c.layout (c.overlay.base T) := by
  intro k r held
  cases pending : c.overlay.pending k with
  | some r' =>
      rw [Overlay.base_of_pending pending] at held
      cases held
      obtain ⟨seq, t, there, rfl, key⟩ := sound.pending_eq_some_iff.mp pending
      obtain ⟨j, isRow, _⟩ := sound.filed seq t there
      exact Option.some.inj (isRow.key.symm.trans key) ▸ isRow
  | none =>
      by_cases gone : c.overlay.cleared = true ∨ k ∈ c.overlay.dropped
      · rw [Overlay.base_of_gone pending gone] at held
        cases held
      · rw [Overlay.base_of_untouched pending gone] at held
        exact keyed k r held

/-- What the destination does with a sound collapser's window is the collapser's
overlay, whenever the overlay means something. -/
theorem applyUnit_of_meaning {c : Collapser} (sound : c.Sound) {destTable : String} {T T' : Table}
    (keyed : T.Keyed c.layout) (means : c.overlay.meaning (ResidueOp.step c.layout) T = .ok T') :
    applyUnit destTable (some ⟨c.layout, c.finish, sound.rowsFit⟩) T = .ok (c.events, T') := by
  have rendered : c.finish.upserts.mapM renderCopyRow = .ok c.images := by
    rw [← upserts_finish]
    refine mapM_renderCopyRow fun r mem => ?_
    obtain ⟨k, isRow⟩ := sound.isRow_of_mem_images (List.mem_map_of_mem mem)
    exact isRow.whole
  have tail : applyResidue c.layout destTable
      (c.finish.residue.zip (deletedLater c.finish.residue).1) (c.overlay.base T) = .ok T' := by
    refine applyResidue_of_runOps ?_ (sound.keyed_base keyed) ?_
    · intro op mem
      exact sound.fits op.1 (List.of_mem_zip mem).1
    · rw [List.map_fst_zip (Nat.le_of_eq (length_deletedLater _).symm)]
      exact means
  simp only [applyUnit, rendered, bind, Except.bind, setPhase_eq_base sound T, tail]
  rfl

end phases

/-- Landed over `T`, what the collapser has accumulated is the table `S`; the
keys it has a say about are the ones in `seen`. -/
structure Tracks {l : Layout} (T : Table) (c : Collapser) (S : SourceTable l) (seen : Set Key) :
    Prop where
  sound : c.Sound
  layout : c.layout = l
  named : c.overlay.Named (ResidueOp.keys l)
  touched : c.overlay.touched = seen
  means : c.overlay.meaning (ResidueOp.step l) T = .ok S.rows

namespace Tracks

variable {l : Layout} {T : Table} {c : Collapser} {S S' : SourceTable l} {seen : Set Key}
variable {k : Key} {row : Tuple}

theorem standsFor (tracks : Tracks T c S seen) : c.StandsFor l c.overlay :=
  ⟨tracks.sound, tracks.layout, rfl⟩

theorem kept (tracks : Tracks T c S seen) : c.overlay.Kept (ResidueOp.step l) :=
  tracks.named.kept (ResidueOp.confined_step l)

private theorem of_standsFor {o : Overlay Key (List Cell) ResidueOp} (stands : c.StandsFor l o)
    (named : o.Named (ResidueOp.keys l)) (touched : o.touched = seen)
    (means : o.meaning (ResidueOp.step l) T = .ok S.rows) : Tracks T c S seen :=
  ⟨stands.sound, stands.layout, stands.overlay ▸ named, stands.overlay ▸ touched,
    stands.overlay ▸ means⟩

theorem new (S : SourceTable l) : Tracks S.rows (Collapser.new l) S ∅ :=
  of_standsFor (standsFor_new l) .empty Overlay.touched_empty Overlay.meaning_empty

theorem at' (tracks : Tracks T c S seen) (pos : Nat) : Tracks T (c.at' pos) S seen :=
  of_standsFor (tracks.standsFor.at' pos) tracks.named tracks.touched tracks.means

theorem count (tracks : Tracks T c S seen) (n : Nat) : Tracks T { c with events := n } S seen :=
  of_standsFor (tracks.standsFor.count n) tracks.named tracks.touched tracks.means

theorem putDelete (tracks : Tracks T c S seen) (k : Key) :
    Tracks T (c.putDelete (K.ofKey k)) (S.erase k) (insert k seen) :=
  of_standsFor (tracks.standsFor.putDelete k) (tracks.named.erase rfl)
    (by rw [Overlay.touched_erase, tracks.touched])
    (Overlay.meaning_erase tracks.kept tracks.means rfl)

theorem putImage_whole (tracks : Tracks T c S seen) (isRow : l.IsRow k row.toCells) :
    Tracks T (c.putImage (K.ofKey k) row) (S.put k row.toCells isRow) (insert k seen) :=
  of_standsFor (tracks.standsFor.putImage_whole isRow)
    (tracks.named.write (ResidueOp.keys_upsert isRow.key))
    (by rw [Overlay.touched_write, tracks.touched])
    (Overlay.meaning_write tracks.kept tracks.means (ResidueOp.step_upsert isRow.key))

theorem putImage_masked (tracks : Tracks T c S seen) (toast : row.hasToast = true)
    {cur : List Cell} (held : S.rows k = some cur)
    (fits : (ResidueOp.maskedUpdate k row.toCells).Fits l)
    (isRow : l.IsRow k (patch row.toCells cur)) :
    Tracks T (c.putImage (K.ofKey k) row) (S.put k _ isRow) (insert k seen) := by
  refine of_standsFor (tracks.standsFor.putImage_masked toast fits) (tracks.named.defer rfl)
    (by rw [Overlay.touched_defer, tracks.touched, Set.singleton_union]) ?_
  rw [Overlay.meaning_defer, tracks.means]
  exact ResidueOp.step_maskedUpdate (l := l) held

theorem moveMasked (tracks : Tracks T c S seen) {j : Key} {cur : List Cell}
    (held : S.rows j = some cur) (free : S.rows k = none)
    (fits : (ResidueOp.rekey j k row.toCells).Fits l)
    (isRow : l.IsRow k (patch row.toCells cur)) :
    Tracks T (c.moveMasked (K.ofKey j) (K.ofKey k) row) ((S.erase j).put k _ isRow)
      (insert k (insert j seen)) := by
  have ne : k ≠ j := by
    rintro rfl
    rw [free] at held
    cases held
  refine of_standsFor (tracks.standsFor.moveMasked ne fits) (tracks.named.defer rfl) ?_ ?_
  · rw [Overlay.touched_defer, tracks.touched, Set.insert_union, Set.singleton_union,
      Set.insert_comm]
  · rw [Overlay.meaning_defer, tracks.means]
    exact ResidueOp.step_rekey (l := l) held free

theorem truncate (tracks : Tracks T c S seen) :
    Tracks T c.truncate (SourceTable.empty l) ∅ :=
  of_standsFor tracks.standsFor.truncate .clear Overlay.touched_clear Overlay.meaning_clear

/-- Where keys are checked row by row, the row leaving a key is the one the
window last wrote there: a full old image agrees with the queued one. -/
theorem killOld (tracks : Tracks T c S seen) {old : Tuple} {full : Bool} {cur : List Cell}
    (row : S.rows k = some cur) (whole : full = true → old.toCells = cur) :
    Tracks T (c.killOld full old (K.ofKey k)) (S.erase k) (insert k seen) := by
  refine of_standsFor (tracks.standsFor.killOld_known ?_) (tracks.named.erase rfl)
    (by rw [Overlay.touched_erase, tracks.touched])
    (Overlay.meaning_erase tracks.kept tracks.means rfl)
  intro is_full free r pending
  have same := Overlay.meaning_of_free tracks.kept tracks.means free
  rw [Overlay.base_of_pending pending, row, Option.some.injEq] at same
  rw [whole is_full, same]

/-- An update whose image has its key in place, over the row `cur` it is about. -/
theorem update_image (tracks : Tracks T c S seen) {j : Key} {cur : List Cell}
    (held : S.rows j = some cur) (width : row.len = l.cols.length)
    (key : l.keyTexts row.toCells = some k) (free : k = j ∨ S.rows k = none)
    (isRow : l.IsRow k (patch row.toCells cur)) :
    let S' := (S.erase j).put k _ isRow
    let seen' := insert k (insert j seen)
    (k = j → Tracks T (c.putImage (K.ofKey k) row) S' seen') ∧
      (k ≠ j → row.hasToast = true →
        Tracks T (c.moveMasked (K.ofKey j) (K.ofKey k) row) S' seen') ∧
      (k ≠ j → row.hasToast = false → ∀ full old, (full = true → old.toCells = cur) →
        Tracks T ((c.killOld full old (K.ofKey j)).putImage (K.ofKey k) row) S' seen') := by
  intro S' seen'
  have fits : row.toCells.length = l.cols.length ∧ l.keyTexts row.toCells = some k :=
    ⟨by simpa using width, key⟩
  have whole_row : row.hasToast = false → patch row.toCells cur = row.toCells ∧
      l.IsRow k row.toCells := by
    intro whole
    rw [← Bool.not_eq_true, Tuple.hasToast_iff] at whole
    exact ⟨patch_of_whole cur whole, fits.1, whole, key⟩
  refine ⟨?_, ?_, ?_⟩
  · rintro rfl
    have same : S' = S.put k _ isRow := by simp [S', SourceTable.put, SourceTable.erase]
    have same_seen : seen' = insert k seen := Set.insert_eq_of_mem (Set.mem_insert ..)
    rw [same, same_seen]
    cases toast : row.hasToast with
    | true => exact tracks.putImage_masked toast held fits isRow
    | false =>
        obtain ⟨patched, isRow'⟩ := whole_row toast
        simpa only [patched] using tracks.putImage_whole isRow'
  · intro ne toast
    exact tracks.moveMasked held (free.resolve_left ne) fits isRow
  · intro ne toast full old whole
    obtain ⟨patched, isRow'⟩ := whole_row toast
    simpa only [S', seen', patched] using (tracks.killOld held whole).putImage_whole isRow'

/-- Landing a legal update. -/
theorem update (tracks : Tracks T c S seen) {old : Option Tuple} {full : Bool}
    (legal : S.step? (.update old row full) = some S') :
    ∃ c', c.updateImage old full row = .ok c' ∧
      Tracks T c' S' ((StreamOp.update old row full).keys l ∪ seen) := by
  obtain ⟨j, cur, k, isRow, oldKey, held, whole, free, rfl⟩ := SourceTable.step?_update legal
  have counted := tracks.count (c.events + 1)
  have width : row.len = l.cols.length := by simpa using isRow.width
  have keys : (StreamOp.update old row full).keys l ∪ seen = insert k (insert j seen) := by
    have moved : l.keyTexts (patch row.toCells (old.getD row).toCells) = some k :=
      Layout.keyTexts_patch_of_same oldKey (S.keyed j cur held).key isRow.key
    ext i
    simp [StreamOp.keys, oldKey, moved, eq_comm, or_assoc, or_left_comm]
  rw [keys]
  obtain rfl := tracks.layout
  cases old with
  | none =>
      have key : c.layout.keyTexts row.toCells = some k := by
        have patched := Layout.keyTexts_patch oldKey cur
        rw [Option.getD_none, isRow.key] at patched
        rwa [patched]
      obtain rfl : k = j := Option.some.inj (key.symm.trans oldKey)
      refine ⟨_, ?_, (counted.update_image held width key free isRow).1 rfl⟩
      simp [updateImage, keyOfRow_eq key, bind, Except.bind]
  | some o =>
      rw [Option.getD_some] at oldKey
      obtain ⟨patched, key⟩ := keyFromOld_spec oldKey (S.keyed j cur held).key isRow.key
      have isRow' : c.layout.IsRow k
          (patch (keyFromOld c.layout.keyIdx o row).toCells cur) := patched ▸ isRow
      have width' : (keyFromOld c.layout.keyIdx o row).len = c.layout.cols.length := by
        simpa using isRow'.width
      have same : (S.erase j).put k _ isRow = (S.erase j).put k _ isRow' := by
        simp only [SourceTable.put, patched]
      rw [same]
      obtain ⟨stays, moves, killed⟩ := counted.update_image held width' key free isRow'
      refine ⟨_, updateImage_some c oldKey key, ?_⟩
      dsimp only
      by_cases kept : j = k
      · rw [if_pos kept]
        exact stays kept.symm
      · rw [if_neg kept]
        cases toast : (keyFromOld c.layout.keyIdx o row).hasToast with
        | true => exact moves (Ne.symm kept) toast
        | false => exact killed (Ne.symm kept) toast full o fun is_full => whole is_full o rfl

/-- Landing a legal event is the event's step on what the collapser tracks. -/
theorem land (tracks : Tracks T c S seen) (pos : Nat) {op : StreamOp}
    (legal : S.step? op = some S') :
    ∃ c', c.land pos op = .ok c' ∧
      Tracks T c' S' (if op = .truncate then ∅ else op.keys l ∪ seen) := by
  have tracks := tracks.at' pos
  cases op with
  | insert row =>
      obtain ⟨k, isRow, _, rfl⟩ := SourceTable.step?_insert legal
      have keys : (StreamOp.insert row).keys l = {k} := by
        ext i
        simp [StreamOp.keys, isRow.key, eq_comm]
      rw [if_neg (by simp), keys, Set.singleton_union]
      obtain rfl := tracks.layout
      exact ⟨_, insert_eq _ isRow, (tracks.count _).putImage_whole isRow⟩
  | update old row full =>
      rw [if_neg (by simp)]
      exact tracks.update legal
  | delete old =>
      obtain ⟨k, cur, key, held, rfl⟩ := SourceTable.step?_delete legal
      have keys : (StreamOp.delete old).keys l = {k} := by
        ext i
        simp [StreamOp.keys, key, eq_comm]
      rw [if_neg (by simp), keys, Set.singleton_union]
      obtain rfl := tracks.layout
      refine ⟨_, ?_, (tracks.count ((c.at' pos).events + 1)).putDelete k⟩
      simp only [Collapser.land, Collapser.delete, keyOfOld, keyOfRow_eq key, Except.map]
  | truncate =>
      obtain rfl : SourceTable.empty l = S' := Option.some.inj legal
      exact ⟨_, rfl, tracks.truncate⟩

/-- A window's run of legal events. -/
theorem landAll {S : SourceTable l} (tracks : Tracks T c S seen) {ops : List (Nat × StreamOp)}
    (legal : S.run? (ops.map Prod.snd) = some S') :
    ∃ c', c.landAll ops = .ok c' ∧
      Tracks T c' S' ((ops.map Prod.snd).foldl
        (fun seen op => if op = .truncate then ∅ else op.keys l ∪ seen) seen) := by
  induction ops generalizing c S seen with
  | nil =>
      cases legal
      exact ⟨c, rfl, tracks⟩
  | cons op ops ih =>
      obtain ⟨S₁, first, rest⟩ := Option.bind_eq_some_iff.mp legal
      obtain ⟨c₁, landed, tracks₁⟩ := tracks.land op.1 first
      obtain ⟨c', landed', tracks'⟩ := ih tracks₁ rest
      refine ⟨c', ?_, tracks'⟩
      simp only [Collapser.landAll, landed, Except.bind, landed']

end Tracks

/-- The collapser after a legal window: it holds the source's table over the
pre-window one, and has a say about the touched keys only. -/
theorem Collapser.tracks_of_legal {l : Layout} {S S' : SourceTable l}
    {events : List (Nat × StreamOp)} (legal : S.run? (events.map Prod.snd) = some S') :
    ∃ c, (Collapser.new l).landAll events = .ok c ∧
      Tracks S.rows c S' (touchedKeys l (events.map Prod.snd)) :=
  (Tracks.new S).landAll legal

/-- Collapsing a window and applying it in its phases is applying its events one
by one: for every table and every legal sequence of row events, whatever their
commit positions, the window seals and lands the source's table. -/
theorem Collapser.collapse_preserves_meaning {l : Layout} {S S' : SourceTable l}
    {events : List (Nat × StreamOp)} (destTable : String)
    (legal : S.run? (events.map Prod.snd) = some S') :
    ∃ c w, (Collapser.new l).landAll events = .ok c ∧ c.seal destTable = .ok w ∧
      applyUnit destTable (some w) S.rows = .ok (c.events, S'.rows) := by
  obtain ⟨c, landed, tracks⟩ := Collapser.tracks_of_legal legal
  obtain rfl := tracks.layout
  exact ⟨c, _, landed, tracks.sound.seal destTable,
    applyUnit_of_meaning tracks.sound S.keyed tracks.means⟩

/-- A row moved to another key without its wide column, then a new row at the old key. -/
theorem Collapser.collapse_preserves_meaning_move :
    ∃ c w, (Collapser.new Sample.layout).landAll Sample.moveThenReuse = .ok c ∧
      c.seal "public.t" = .ok w ∧
      applyUnit "public.t" (some w) Sample.one.rows = .ok (c.events,
        ((Sample.one.run? (Sample.moveThenReuse.map Prod.snd)).get (by decide)).rows) :=
  collapse_preserves_meaning "public.t" (Option.some_get _).symm

end Apitap
