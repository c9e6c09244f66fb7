import Apitap.Logbased.CollapseMeaning

/-!
# How a legal event is filed

One legal row event changes the collapser's overlay in one of seven ways. What the
source's table becomes is said next to it, so that a destination with another notion of
a row, or with rows missing, can follow the same steps.
-/

namespace Apitap

open Foundation Collapser

namespace StreamOp

/-- The key of the row an event is about. -/
def oldKey? (l : Layout) : StreamOp → Option Key
  | .insert _ => none
  | .update old row _ => l.keyTexts (old.getD row).toCells
  | .delete old => l.keyTexts old.toCells
  | .truncate => none

/-- The key of the row an event leaves. -/
def newKey? (l : Layout) : StreamOp → Option Key
  | .insert row => l.keyTexts row.toCells
  | .update old row _ => l.keyTexts (patch row.toCells (old.getD row).toCells)
  | .delete _ => none
  | .truncate => none

theorem mem_keys {l : Layout} {op : StreamOp} {k : Key} :
    k ∈ op.keys l ↔ op.oldKey? l = some k ∨ op.newKey? l = some k := by
  cases op <;> simp [keys, oldKey?, newKey?]

/-- The new image misses cells, its key aside. -/
def defers (l : Layout) : StreamOp → Bool
  | .update (some old) row _ => (keyFromOld l.keyIdx old row).hasToast
  | .update none row _ => row.hasToast
  | _ => false

/-- The columns the new image sets, the key's aside. -/
def sets (l : Layout) : StreamOp → List (String × Cell)
  | .update (some old) row _ => DestPg.setList (DestPg.isPk l) l.cols
      (keyFromOld l.keyIdx old row).toCells
  | .update none row _ => DestPg.setList (DestPg.isPk l) l.cols row.toCells
  | _ => []

end StreamOp

variable {l : Layout}

/-- What an event makes of the source's table and of an overlay. -/
inductive Files (S : SourceTable l) (o : Overlay Key (List Cell) ResidueOp) :
    StreamOp → SourceTable l → Overlay Key (List Cell) ResidueOp → Prop
  | put {row : Tuple} {k : Key} (isRow : l.IsRow k row.toCells) (free : S.rows k = none) :
      Files S o (.insert row) (S.put k _ isRow) (o.write k row.toCells (.upsert row.toCells))
  | rewrite {old : Option Tuple} {row : Tuple} {full : Bool} {k : Key} {r cur : List Cell}
      (held : S.rows k = some cur) (isRow : l.IsRow k r)
      (from_ : (StreamOp.update old row full).oldKey? l = some k)
      (onto : (StreamOp.update old row full).newKey? l = some k)
      (whole : (StreamOp.update old row full).defers l = false) :
      Files S o (.update old row full) (S.put k r isRow) (o.write k r (.upsert r))
  | replace {old : Option Tuple} {row : Tuple} {full : Bool} {j k : Key} {r cur : List Cell}
      (ne : k ≠ j) (held : S.rows j = some cur) (free : S.rows k = none) (isRow : l.IsRow k r)
      (from_ : (StreamOp.update old row full).oldKey? l = some j)
      (onto : (StreamOp.update old row full).newKey? l = some k)
      (whole : (StreamOp.update old row full).defers l = false) :
      Files S o (.update old row full) ((S.erase j).put k r isRow)
        ((o.erase j (.delete j)).write k r (.upsert r))
  | mask {old : Option Tuple} {row : Tuple} {full : Bool} {k : Key} {r cur : List Cell}
      (held : S.rows k = some cur) (fits : (ResidueOp.maskedUpdate k r).Fits l)
      (isRow : l.IsRow k (patch r cur))
      (from_ : (StreamOp.update old row full).oldKey? l = some k)
      (onto : (StreamOp.update old row full).newKey? l = some k)
      (defers : (StreamOp.update old row full).defers l = true)
      (sets : (StreamOp.update old row full).sets l = DestPg.setList (DestPg.isPk l) l.cols r) :
      Files S o (.update old row full) (S.put k _ isRow) (o.defer (.maskedUpdate k r) {k})
  | move {old : Option Tuple} {row : Tuple} {full : Bool} {j k : Key} {r cur : List Cell}
      (ne : k ≠ j) (held : S.rows j = some cur) (free : S.rows k = none)
      (fits : (ResidueOp.rekey j k r).Fits l) (isRow : l.IsRow k (patch r cur))
      (from_ : (StreamOp.update old row full).oldKey? l = some j)
      (onto : (StreamOp.update old row full).newKey? l = some k)
      (defers : (StreamOp.update old row full).defers l = true) :
      Files S o (.update old row full) ((S.erase j).put k _ isRow) (o.defer (.rekey j k r) {j, k})
  | erase {old : Tuple} {k : Key} {cur : List Cell} (held : S.rows k = some cur)
      (from_ : (StreamOp.delete old).oldKey? l = some k) :
      Files S o (.delete old) (S.erase k) (o.erase k (.delete k))
  | clear : Files S o .truncate (SourceTable.empty l) o.clear

variable {T : Table} {c : Collapser} {S S' : SourceTable l} {seen : Set Key}

namespace Tracks

/-- Landing an update whose image has its key in place, over the row `cur` it is about. -/
theorem files_image (tracks : Tracks T c S seen) {old : Option Tuple}
    {row image : Tuple} {full : Bool}
    {j k : Key} {cur : List Cell} (held : S.rows j = some cur) (free : k = j ∨ S.rows k = none)
    (width : image.len = l.cols.length) (key : l.keyTexts image.toCells = some k)
    (isRow : l.IsRow k (patch image.toCells cur))
    (from_ : (StreamOp.update old row full).oldKey? l = some j)
    (onto : (StreamOp.update old row full).newKey? l = some k)
    (defers : (StreamOp.update old row full).defers l = image.hasToast)
    (sets : (StreamOp.update old row full).sets l = DestPg.setList (DestPg.isPk l) l.cols
      image.toCells) :
    let files := Files S c.overlay (.update old row full) ((S.erase j).put k _ isRow)
    (k = j → files (c.putImage (K.ofKey k) image).overlay) ∧
      (k ≠ j → image.hasToast = true →
        files (c.moveMasked (K.ofKey j) (K.ofKey k) image).overlay) ∧
      (k ≠ j → image.hasToast = false → ∀ o : Tuple, (full = true → o.toCells = cur) →
        files ((c.killOld full o (K.ofKey j)).putImage (K.ofKey k) image).overlay) := by
  have stands := tracks.standsFor
  have fits : image.toCells.length = l.cols.length ∧ l.keyTexts image.toCells = some k :=
    ⟨by simpa using width, key⟩
  have whole_image : image.hasToast = false → patch image.toCells cur = image.toCells ∧
      l.IsRow k image.toCells := by
    intro whole
    rw [← Bool.not_eq_true, Tuple.hasToast_iff] at whole
    exact ⟨patch_of_whole cur whole, fits.1, whole, key⟩
  refine ⟨?_, ?_, ?_⟩
  · rintro rfl
    have same : (S.erase k).put k _ isRow = S.put k _ isRow := by
      simp [SourceTable.put, SourceTable.erase]
    simp only [same]
    cases toast : image.hasToast with
    | true =>
        rw [(stands.putImage_masked toast fits).overlay]
        exact .mask held fits isRow from_ onto (defers.trans toast) sets
    | false =>
        obtain ⟨patched, isRow'⟩ := whole_image toast
        rw [(stands.putImage_whole isRow').overlay]
        simpa only [patched] using Files.rewrite held isRow' from_ onto (defers.trans toast)
  · intro ne toast
    rw [(stands.moveMasked ne fits).overlay]
    exact .move ne held (free.resolve_left ne) fits isRow from_ onto (defers.trans toast)
  · intro ne toast o whole
    obtain ⟨patched, isRow'⟩ := whole_image toast
    have known : full = true → j ∉ c.overlay.sticky → ∀ r,
      c.overlay.pending j = some r → r = o.toCells := by
      intro is_full apart r pending
      have same := Overlay.meaning_of_free tracks.kept tracks.means apart
      rw [Overlay.base_of_pending pending, held, Option.some.injEq] at same
      rw [whole is_full, same]
    rw [((stands.killOld_known known).putImage_whole isRow').overlay]
    simpa only [patched] using
      Files.replace ne held (free.resolve_left ne) isRow' from_ onto (defers.trans toast)

theorem files_update (tracks : Tracks T c S seen) {old : Option Tuple} {row : Tuple} {full : Bool}
    (legal : S.step? (.update old row full) = some S') :
    ∃ c', c.updateImage old full row = .ok c' ∧ Files S c.overlay (.update old row full) S'
      c'.overlay := by
  obtain ⟨j, cur, k, isRow, oldKey, held, whole, free, rfl⟩ := SourceTable.step?_update legal
  have counted := tracks.count (c.events + 1)
  have width : row.len = l.cols.length := by simpa using isRow.width
  have onto : (StreamOp.update old row full).newKey? l = some k :=
    Layout.keyTexts_patch_of_same oldKey (S.keyed j cur held).key isRow.key
  obtain rfl := tracks.layout
  cases old with
  | none =>
      have key : c.layout.keyTexts row.toCells = some k := by
        have patched := Layout.keyTexts_patch oldKey cur
        rw [Option.getD_none, isRow.key] at patched
        rwa [patched]
      obtain rfl : k = j := Option.some.inj (key.symm.trans oldKey)
      refine ⟨_, ?_, (counted.files_image held (.inl rfl) width key isRow oldKey onto
        rfl rfl).1 rfl⟩
      simp [updateImage, keyOfRow_eq key, bind, Except.bind]
  | some o =>
      have from_ : (StreamOp.update (some o) row full).oldKey? c.layout = some j := oldKey
      rw [Option.getD_some] at oldKey
      obtain ⟨patched, key⟩ := keyFromOld_spec oldKey (S.keyed j cur held).key isRow.key
      have isRow' : c.layout.IsRow k
          (patch (keyFromOld c.layout.keyIdx o row).toCells cur) := patched ▸ isRow
      have width' : (keyFromOld c.layout.keyIdx o row).len = c.layout.cols.length := by
        simpa using isRow'.width
      have same : (S.erase j).put k _ isRow = (S.erase j).put k _ isRow' := by
        simp only [SourceTable.put, patched]
      rw [same]
      obtain ⟨stays, moves, killed⟩ := counted.files_image held free width' key isRow'
        from_ onto rfl rfl
      refine ⟨_, updateImage_some c oldKey key, ?_⟩
      dsimp only
      by_cases kept : j = k
      · rw [if_pos kept]
        exact stays kept.symm
      · rw [if_neg kept]
        cases toast : (keyFromOld c.layout.keyIdx o row).hasToast with
        | true => exact moves (Ne.symm kept) toast
        | false => exact killed (Ne.symm kept) toast o fun is_full => whole is_full o rfl

/-- Landing a legal event files it. -/
theorem land_files (tracks : Tracks T c S seen) (pos : Nat) {op : StreamOp}
    (legal : S.step? op = some S') :
    ∃ c', c.land pos op = .ok c' ∧ Files S c.overlay op S' c'.overlay := by
  have tracks := tracks.at' pos
  change ∃ c', c.land pos op = .ok c' ∧ Files S (c.at' pos).overlay op S' c'.overlay
  have counted := tracks.count ((c.at' pos).events + 1)
  obtain rfl := tracks.layout
  cases op with
  | insert row =>
      obtain ⟨k, isRow, free, rfl⟩ := SourceTable.step?_insert legal
      refine ⟨_, insert_eq (c.at' pos) isRow, ?_⟩
      rw [(counted.standsFor.putImage_whole isRow).overlay]
      exact .put isRow free
  | update old row full => exact tracks.files_update legal
  | delete old =>
      obtain ⟨k, cur, key, held, rfl⟩ := SourceTable.step?_delete legal
      refine ⟨({ c.at' pos with events := (c.at' pos).events + 1 }).putDelete (K.ofKey k), ?_, ?_⟩
      · simp only [Collapser.land, Collapser.delete, keyOfOld]
        exact congrArg (Except.map _) (keyOfRow_eq key)
      · rw [(counted.standsFor.putDelete k).overlay]
        exact .erase held key
  | truncate =>
      obtain rfl : SourceTable.empty (c.at' pos).layout = S' := Option.some.inj legal
      refine ⟨_, rfl, ?_⟩
      rw [tracks.standsFor.truncate.overlay]
      exact .clear

/-- What every filing keeps of an overlay, of the source's table and of the events so far holds
behind a legal window. -/
theorem landAll_files
    (holds : Overlay Key (List Cell) ResidueOp → SourceTable l → List StreamOp → Prop)
    (files : ∀ o S op S' o' ops, Files S o op S' o' → holds o S ops → holds o' S' (ops ++ [op]))
    {events : List (Nat × StreamOp)} {ops : List StreamOp} (tracks : Tracks T c S seen)
    (first : holds c.overlay S ops) (legal : S.run? (events.map Prod.snd) = some S') :
    ∃ c' seen', c.landAll events = .ok c' ∧ Tracks T c' S' seen' ∧
      holds c'.overlay S' (ops ++ events.map Prod.snd) := by
  induction events generalizing c S seen ops with
  | nil =>
      cases legal
      rw [List.map_nil, List.append_nil]
      exact ⟨c, seen, rfl, tracks, first⟩
  | cons event events ih =>
      obtain ⟨S₁, step, rest⟩ := Option.bind_eq_some_iff.mp legal
      obtain ⟨c₁, landed, tracks₁⟩ := tracks.land event.1 step
      obtain ⟨c₁', landed', filed⟩ := tracks.land_files event.1 step
      obtain rfl : c₁' = c₁ := Except.ok.inj (landed'.symm.trans landed)
      obtain ⟨c', seen', landedAll, tracks', last⟩ :=
        ih tracks₁ (files _ _ _ _ _ _ filed first) rest
      refine ⟨c', seen', ?_, tracks', ?_⟩
      · rw [Collapser.landAll, landed]
        exact landedAll
      · rw [List.map_cons, List.append_cons]
        exact last

end Tracks

end Apitap
