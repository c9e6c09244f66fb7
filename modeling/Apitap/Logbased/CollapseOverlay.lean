import Apitap.Logbased.Phases
import Mathlib.Data.List.ReduceOption

/-!
# The collapser is an overlay

The key map, the upserts and the residue tail together stand for one overlay of
the destination table: a slot's pending delete is a dropped key, a queued upsert
is the key's pending value, and a residue slot is a sticky key. `Sound` is what
ties the three together (a queued image is filed under its own key, once), and
each way the collapser touches them is one step on the overlay.
-/

namespace Apitap

open Foundation

/-- The parse is guarded by the print: materializing gives the texts back. -/
@[simp] theorem K.materialize_ofKey (k : Key) : (K.ofKey k).materialize = k := by
  unfold ofKey
  split
  · rename_i t
    split
    · rename_i v parsed
      unfold parseI64Key at parsed
      obtain ⟨w, _, guarded⟩ := Option.bind_eq_some_iff.mp parsed
      split at guarded
      · rename_i printed
        cases guarded
        simp only [materialize, printed]
      · cases guarded
    · rfl
  · rfl

theorem K.ofKey_injective : Function.Injective K.ofKey :=
  Function.LeftInverse.injective K.materialize_ofKey

@[simp] theorem K.ofKey_inj {j k : Key} : K.ofKey j = K.ofKey k ↔ j = k :=
  K.ofKey_injective.eq_iff

namespace Collapser

private theorem mapM_keyCell {row : Tuple} {idx : List Nat} {k : Key}
    (texts : List.Forall₂ (fun i t => row.toCells[i]? = some (.text t)) idx k) :
    idx.mapM (keyCell row) = .ok k := by
  induction texts with
  | nil => rfl
  | cons here rest ih => simp [ih, keyCell, here, pure, Except.pure, bind, Except.bind]

/-- A row with a key is filed under it. -/
theorem keyOfRow_eq {l : Layout} {row : Tuple} {k : Key} (key : l.keyTexts row.toCells = some k) :
    keyOfRow l row = .ok (K.ofKey k) := by
  have texts := Layout.keyTexts_eq_some_iff.mp key
  have owned := mapM_keyCell texts
  unfold keyOfRow
  rw [owned]
  cases idx : l.keyIdx with
  | nil =>
      rw [idx] at texts
      cases texts
      rfl
  | cons i rest =>
      rw [idx] at texts
      cases texts with
      | cons here others =>
          cases others with
          | nil =>
              simp only [Tuple.get_eq, here, K.ofKey]
              split <;> simp [Except.map, *]
          | cons next others => simp [Except.map, K.ofKey]

theorem fillKeyCell_eq {old : Tuple} {cells : List Cell} {i : Nat} {t : Bytes}
    (held : old.toCells[i]? = some (.text t)) :
    fillKeyCell old cells i =
      if cells[i]? = some .unchangedToast then cells.set i (.text t) else cells := by
  unfold fillKeyCell
  rw [Tuple.get_eq, held]
  by_cases hole : cells[i]? = some .unchangedToast
  · simp [hole]
  · rw [if_neg hole]
    split
    · rename_i hole' _
      exact absurd hole' hole
    · rfl

/-- Filling a key cell writes what `base` holds there, into a hole only. -/
theorem fillKeyCell_spec {old : Tuple} {base : List Cell} {i : Nat} {t : Bytes}
    (cells : List Cell) (held : old.toCells[i]? = some (.text t))
    (same : base[i]? = some (.text t)) :
    patch (fillKeyCell old cells i) base = patch cells base ∧
      (∀ j : Nat, cells[j]? ≠ some Cell.unchangedToast →
        (fillKeyCell old cells i)[j]? = cells[j]?) ∧
      (fillKeyCell old cells i)[i]? ≠ some Cell.unchangedToast := by
  rw [fillKeyCell_eq held]
  by_cases hole : cells[i]? = some .unchangedToast
  · have inside : i < cells.length := (List.getElem?_eq_some_iff.mp hole).1
    rw [if_pos hole]
    refine ⟨?_, ?_, ?_⟩
    · apply List.ext_getElem?
      intro j
      by_cases at_i : i = j
      · subst at_i
        rw [getElem?_patch, getElem?_patch, if_pos hole, List.getElem?_set_self inside, same]
        simp
      · rw [getElem?_patch, getElem?_patch, List.getElem?_set_ne at_i]
    · intro j shipped
      rw [List.getElem?_set_ne]
      rintro rfl
      exact shipped hole
    · simp [inside]
  · rw [if_neg hole]
    exact ⟨rfl, fun _ _ => rfl, hole⟩

private theorem fold_fillKeyCell {old : Tuple} {base : List Cell} {idx : List Nat}
    (cells : List Cell)
    (agree : ∀ i ∈ idx, ∃ t, old.toCells[i]? = some (.text t) ∧ base[i]? = some (.text t)) :
    patch (idx.foldl (fillKeyCell old) cells) base = patch cells base ∧
      (∀ j : Nat, cells[j]? ≠ some Cell.unchangedToast →
        (idx.foldl (fillKeyCell old) cells)[j]? = cells[j]?) ∧
      ∀ i ∈ idx, (idx.foldl (fillKeyCell old) cells)[i]? ≠ some Cell.unchangedToast := by
  induction idx generalizing cells with
  | nil => exact ⟨rfl, fun _ _ => rfl, fun _ mem => nomatch mem⟩
  | cons i idx ih =>
      obtain ⟨t, held, same⟩ := agree i (.head _)
      obtain ⟨filled, kept, shipped⟩ := fillKeyCell_spec cells held same
      obtain ⟨filled', kept', shipped'⟩ :=
        ih (fillKeyCell old cells i) fun j mem => agree j (.tail _ mem)
      simp only [List.foldl_cons]
      refine ⟨filled'.trans filled, ?_, ?_⟩
      · intro j there
        have same_j := kept j there
        rw [kept' j (by rwa [same_j]), same_j]
      · intro j mem
        rcases List.mem_cons.mp mem with rfl | later
        · rwa [kept' j shipped]
        · exact shipped' j later

/-- An update's new image with its key cells in place still stands for the same
new row, and its key is that row's. -/
theorem keyFromOld_spec {l : Layout} {old row : Tuple} {k k' : Key} {base : List Cell}
    (oldKey : l.keyTexts old.toCells = some k) (baseKey : l.keyTexts base = some k)
    (newKey : l.keyTexts (patch row.toCells base) = some k') :
    patch (keyFromOld l.keyIdx old row).toCells base = patch row.toCells base ∧
      l.keyTexts (keyFromOld l.keyIdx old row).toCells = some k' := by
  have agree : ∀ i ∈ l.keyIdx,
      ∃ t, old.toCells[i]? = some (.text t) ∧ base[i]? = some (.text t) := by
    intro i mem
    obtain ⟨t, held⟩ := Layout.text_of_mem_keyIdx oldKey mem
    exact ⟨t, held, (Layout.agree_of_keyTexts oldKey baseKey mem) ▸ held⟩
  have spec : patch (keyFromOld l.keyIdx old row).toCells base = patch row.toCells base ∧
      ∀ i ∈ l.keyIdx, (keyFromOld l.keyIdx old row).toCells[i]? ≠ some .unchangedToast := by
    unfold keyFromOld
    split
    · rw [Tuple.toCells_fromCells]
      have filled := fold_fillKeyCell row.toCells agree
      exact ⟨filled.1, filled.2.2⟩
    · rename_i no_hole
      refine ⟨rfl, fun i mem hole => no_hole ?_⟩
      exact List.any_eq_true.mpr ⟨i, mem, by simpa using hole⟩
  refine ⟨spec.1, ?_⟩
  rw [← newKey, ← spec.1]
  refine Layout.keyTexts_congr fun i mem => ?_
  rw [getElem?_patch, if_neg (spec.2 i mem)]

end Collapser

namespace Collapser

/-- Where a key stands in the window. -/
def slot (c : Collapser) (k : Key) : Option Slot := c.map.lookup (K.ofKey k)

/-- The images queued for the set phase, in insertion order. -/
def images (c : Collapser) : List (List Cell) := c.upserts.reduceOption.map Tuple.toCells

/-- Every slot is filed under a real key, every queued image is a whole row
filed once under its own key, and the key's slot knows of it. -/
structure Sound (c : Collapser) : Prop where
  canonical : ∀ x ∈ c.map, ∃ k, x = K.ofKey k
  queued : ∀ k seq d, c.slot k = some (.upsert seq d) →
    ∃ t, c.upserts[seq]? = some (some t) ∧ c.layout.keyTexts t.toCells = some k
  filed : ∀ (seq : Nat) (t : Tuple), c.upserts[seq]? = some (some t) →
    ∃ k, c.layout.IsRow k t.toCells ∧
      ((∃ d, c.slot k = some (.upsert seq d)) ∨ ∃ d, c.slot k = some (.residue d))
  distinct : ∀ (i j : Nat) (t u : Tuple) (k : Key), c.upserts[i]? = some (some t) →
    c.upserts[j]? = some (some u) → c.layout.keyTexts t.toCells = some k →
    c.layout.keyTexts u.toCells = some k → i = j
  fits : ∀ op ∈ c.residue.ops, op.Fits c.layout

/-- The overlay of the destination that the collapser stands for. -/
def overlay (c : Collapser) : Overlay Key (List Cell) ResidueOp where
  cleared := c.truncated
  dropped := {k | (c.slot k).any Slot.del = true}
  pending k := c.images.find? fun r => c.layout.keyTexts r = some k
  sticky := {k | ∃ d, c.slot k = some (.residue d)}
  tail := c.residue.ops

private theorem overlay_ext {o o' : Overlay Key (List Cell) ResidueOp}
    (cleared : o.cleared = o'.cleared) (dropped : o.dropped = o'.dropped)
    (pending : o.pending = o'.pending) (sticky : o.sticky = o'.sticky)
    (tail : o.tail = o'.tail) : o = o' := by
  cases o
  cases o'
  simp_all

theorem mem_images {c : Collapser} {r : List Cell} :
    r ∈ c.images ↔ ∃ (seq : Nat) (t : Tuple), c.upserts[seq]? = some (some t) ∧ t.toCells = r := by
  simp only [images, List.mem_map, List.reduceOption_mem_iff, List.mem_iff_getElem?
    (l := c.upserts)]
  constructor
  · rintro ⟨t, ⟨seq, there⟩, rfl⟩
    exact ⟨seq, t, there, rfl⟩
  · rintro ⟨seq, t, there, rfl⟩
    exact ⟨t, ⟨seq, there⟩, rfl⟩

/-- A key's pending value is the one queued image filed under it. -/
theorem Sound.pending_eq_some_iff {c : Collapser} (sound : c.Sound) {k : Key} {r : List Cell} :
    c.overlay.pending k = some r ↔
      ∃ (seq : Nat) (t : Tuple), c.upserts[seq]? = some (some t) ∧ t.toCells = r ∧
        c.layout.keyTexts r = some k := by
  constructor
  · intro found
    obtain ⟨seq, t, there, rfl⟩ := mem_images.mp (List.mem_of_find?_eq_some found)
    exact ⟨seq, t, there, rfl, by simpa using List.find?_some found⟩
  · rintro ⟨seq, t, there, rfl, key⟩
    have some_found : (c.overlay.pending k).isSome := by
      rw [overlay, List.find?_isSome]
      exact ⟨t.toCells, mem_images.mpr ⟨seq, t, there, rfl⟩, by simpa using key⟩
    obtain ⟨r, found⟩ := Option.isSome_iff_exists.mp some_found
    obtain ⟨seq', t', there', rfl⟩ := mem_images.mp (List.mem_of_find?_eq_some found)
    have key' : c.layout.keyTexts t'.toCells = some k := by simpa using List.find?_some found
    obtain rfl := sound.distinct _ _ _ _ _ there' there key' key
    rw [there'] at there
    cases there
    exact found

theorem sound_new (l : Layout) : (new l).Sound where
  canonical _ mem := by simp [new] at mem
  queued _ _ _ there := by simp [slot, new] at there
  filed _ _ there := by simp [new] at there
  distinct _ _ _ _ _ there := by simp [new] at there
  fits _ mem := nomatch mem

theorem overlay_new (l : Layout) : (new l).overlay = .empty := by
  simp [overlay, new, slot, images, Overlay.empty, Tail.empty, List.reduceOption_nil]

/-- An update with an old image, once both of its keys are known. -/
theorem updateImage_some (c : Collapser) {old row : Tuple} {full : Bool} {j k : Key}
    (oldKey : c.layout.keyTexts old.toCells = some j)
    (newKey : c.layout.keyTexts (keyFromOld c.layout.keyIdx old row).toCells = some k) :
    c.updateImage (some old) full row = .ok
      (let c' := { c with events := c.events + 1 }
      let row' := keyFromOld c.layout.keyIdx old row
      if j = k then c'.putImage (K.ofKey k) row'
      else if row'.hasToast then c'.moveMasked (K.ofKey j) (K.ofKey k) row'
      else (c'.killOld full old (K.ofKey j)).putImage (K.ofKey k) row') := by
  simp only [updateImage, keyOfRow_eq newKey, keyOfOld, keyOfRow_eq oldKey, bind, Except.bind,
    K.ofKey_inj]
  split
  · rfl
  · split <;> rfl

section slots

variable {c : Collapser} {k : Key} {s : Slot}

theorem slot_insert (c : Collapser) (k j : Key) (s : Slot) :
    (c.map.insert (K.ofKey k) s).lookup (K.ofKey j) = if j = k then some s else c.slot j := by
  by_cases same : j = k
  · subst same
    rw [if_pos rfl, AList.lookup_insert]
  · rw [if_neg same, AList.lookup_insert_ne (by simpa using same), slot]

theorem Sound.canonical_insert (sound : c.Sound) (k : Key) (s : Slot) :
    ∀ x ∈ c.map.insert (K.ofKey k) s, ∃ j, x = K.ofKey j := by
  intro x mem
  rcases (AList.mem_insert _).mp mem with rfl | old
  · exact ⟨k, rfl⟩
  · exact sound.canonical x old

/-- The image of a key that has no slot, or only a pending delete, is not queued. -/
theorem Sound.not_filed (sound : c.Sound) (free : c.slot k = none ∨ c.slot k = some .delete)
    (seq : Nat) (t : Tuple) (there : c.upserts[seq]? = some (some t)) :
    c.layout.keyTexts t.toCells ≠ some k := by
  intro key
  obtain ⟨k', row, known⟩ := sound.filed seq t there
  obtain rfl : k' = k := by simpa [row.key] using key
  rcases free with free | free <;> simp [free] at known

end slots

section steps

variable {c : Collapser} {k : Key}

private theorem getElem?_push {α : Type} {xs : List α} {x y : α} {i : Nat} :
    (xs ++ [x])[i]? = some y ↔ xs[i]? = some y ∨ i = xs.length ∧ x = y := by
  rw [List.getElem?_append]
  split
  · rename_i inside
    simp [Nat.ne_of_lt inside]
  · rename_i outside
    rw [List.getElem?_eq_none (Nat.le_of_not_lt outside)]
    cases past : i - xs.length with
    | zero =>
        have at_end : i = xs.length := by omega
        simp [at_end]
    | succ n =>
        have ne : i ≠ xs.length := by omega
        simp [ne]

private theorem getElem?_put {α : Type} {xs : List α} {x y : α} {i n : Nat} :
    (xs.set n x)[i]? = some y ↔ i ≠ n ∧ xs[i]? = some y ∨ i = n ∧ n < xs.length ∧ x = y := by
  by_cases same : n = i
  · subst same
    by_cases inside : n < xs.length
    · simp [inside]
    · simp [inside]
  · simp [List.getElem?_set_ne same, Ne.symm same]

/-- A fresh image for a key whose slot holds none. -/
theorem pushUpsert_spec (sound : c.Sound) {row : Tuple} {del : Bool}
    (isRow : c.layout.IsRow k row.toCells)
    (free : c.slot k = none ∧ del = false ∨ c.slot k = some .delete ∧ del = true) :
    (c.pushUpsert (K.ofKey k) row del).Sound ∧
      (c.pushUpsert (K.ofKey k) row del).overlay = c.overlay.put k row.toCells := by
  have not_filed := sound.not_filed (k := k) (free.imp And.left And.left)
  have slots : ∀ j, (c.pushUpsert (K.ofKey k) row del).slot j =
      if j = k then some (.upsert c.upserts.length del) else c.slot j :=
    fun j => slot_insert c k j _
  have sound' : (c.pushUpsert (K.ofKey k) row del).Sound := by
    refine ⟨sound.canonical_insert k _, ?_, ?_, ?_, sound.fits⟩
    · intro j seq d held
      rw [slots] at held
      split at held
      · rename_i same
        cases held
        exact ⟨row, getElem?_push.mpr (.inr ⟨rfl, rfl⟩), same ▸ isRow.key⟩
      · obtain ⟨t, there, key⟩ := sound.queued j seq d held
        exact ⟨t, getElem?_push.mpr (.inl there), key⟩
    · intro seq t there
      rcases getElem?_push.mp there with old | ⟨rfl, new⟩
      · obtain ⟨j, rowJ, known⟩ := sound.filed seq t old
        have ne : j ≠ k := fun same => not_filed seq t old (same ▸ rowJ.key)
        refine ⟨j, rowJ, ?_⟩
        rwa [slots, if_neg ne]
      · cases new
        exact ⟨k, isRow, .inl ⟨del, by rw [slots, if_pos rfl]⟩⟩
    · intro i j t u k' there there' key key'
      rcases getElem?_push.mp there with old | ⟨rfl, new⟩ <;>
        rcases getElem?_push.mp there' with old' | ⟨rfl, new'⟩
      · exact sound.distinct _ _ _ _ _ old old' key key'
      · cases new'
        obtain rfl : k = k' := Option.some.inj (isRow.key.symm.trans key')
        exact absurd key (not_filed _ _ old)
      · cases new
        obtain rfl : k = k' := Option.some.inj (isRow.key.symm.trans key)
        exact absurd key' (not_filed _ _ old')
      · rfl
  refine ⟨sound', ?_⟩
  have pending : (c.pushUpsert (K.ofKey k) row del).overlay.pending =
      (c.overlay.put k row.toCells).pending := by
    funext j
    apply Option.ext
    intro r
    rw [sound'.pending_eq_some_iff]
    by_cases same : j = k
    · subst same
      simp only [Overlay.put, Function.update_self]
      constructor
      · rintro ⟨seq, t, there, rfl, key⟩
        rcases getElem?_push.mp there with old | ⟨_, new⟩
        · exact absurd key (not_filed _ _ old)
        · cases new
          rfl
      · rintro ⟨⟩
        exact ⟨_, row, getElem?_push.mpr (.inr ⟨rfl, rfl⟩), rfl, isRow.key⟩
    · simp only [Overlay.put, Function.update_of_ne same, sound.pending_eq_some_iff]
      constructor
      · rintro ⟨seq, t, there, rfl, key⟩
        rcases getElem?_push.mp there with old | ⟨_, new⟩
        · exact ⟨seq, t, old, rfl, key⟩
        · cases new
          refine absurd ?_ same
          simpa [eq_comm] using isRow.key.symm.trans key
      · rintro ⟨seq, t, there, rfl, key⟩
        exact ⟨seq, t, getElem?_push.mpr (.inl there), rfl, key⟩
  have dropped : (c.pushUpsert (K.ofKey k) row del).overlay.dropped = c.overlay.dropped := by
    ext j
    simp only [overlay, Set.mem_ofPred_eq, slots]
    split
    · rename_i same
      subst same
      rcases free with ⟨none, rfl⟩ | ⟨dead, rfl⟩ <;> simp [Slot.del, *]
    · rfl
  have sticky : (c.pushUpsert (K.ofKey k) row del).overlay.sticky = c.overlay.sticky := by
    ext j
    simp only [overlay, Set.mem_ofPred_eq, slots]
    split
    · rename_i same
      subst same
      rcases free with ⟨none, _⟩ | ⟨dead, _⟩ <;> simp [*]
    · rfl
  exact overlay_ext rfl dropped pending sticky rfl

/-- Last write wins in place. -/
theorem replace_spec (sound : c.Sound) {row : Tuple} {seq : Nat} {d : Bool}
    (isRow : c.layout.IsRow k row.toCells) (held : c.slot k = some (.upsert seq d)) :
    let c' := { c with upserts := c.upserts.set seq (some row) }
    c'.Sound ∧ c'.overlay = c.overlay.put k row.toCells := by
  intro c'
  obtain ⟨was, there_was, key_was⟩ := sound.queued k seq d held
  have inside : seq < c.upserts.length := (List.getElem?_eq_some_iff.mp there_was).1
  have sound' : c'.Sound := by
    refine ⟨sound.canonical, ?_, ?_, ?_, sound.fits⟩
    · intro j seq' d' held'
      obtain ⟨t, there, key⟩ := sound.queued j seq' d' held'
      by_cases same : seq' = seq
      · subst same
        rw [there_was] at there
        cases there
        obtain rfl : k = j := Option.some.inj (key_was.symm.trans key)
        exact ⟨row, getElem?_put.mpr (.inr ⟨rfl, inside, rfl⟩), isRow.key⟩
      · exact ⟨t, getElem?_put.mpr (.inl ⟨same, there⟩), key⟩
    · intro seq' t there
      rcases getElem?_put.mp there with ⟨_, old⟩ | ⟨rfl, _, new⟩
      · exact sound.filed seq' t old
      · cases new
        exact ⟨k, isRow, .inl ⟨d, held⟩⟩
    · intro i j t u k' there there' key key'
      rcases getElem?_put.mp there with ⟨ne, old⟩ | ⟨rfl, _, new⟩ <;>
        rcases getElem?_put.mp there' with ⟨ne', old'⟩ | ⟨rfl, _, new'⟩
      · exact sound.distinct _ _ _ _ _ old old' key key'
      · cases new'
        obtain rfl : k = k' := Option.some.inj (isRow.key.symm.trans key')
        exact absurd (sound.distinct _ _ _ _ _ old there_was key key_was) ne
      · cases new
        obtain rfl : k = k' := Option.some.inj (isRow.key.symm.trans key)
        exact absurd (sound.distinct _ _ _ _ _ old' there_was key' key_was) ne'
      · rfl
  refine ⟨sound', overlay_ext rfl rfl ?_ rfl rfl⟩
  funext j
  apply Option.ext
  intro r
  rw [sound'.pending_eq_some_iff]
  by_cases same : j = k
  · subst same
    simp only [Overlay.put, Function.update_self]
    constructor
    · rintro ⟨seq', t, there, rfl, key⟩
      rcases getElem?_put.mp there with ⟨ne, old⟩ | ⟨_, _, new⟩
      · exact absurd (sound.distinct _ _ _ _ _ old there_was key key_was) ne
      · cases new
        rfl
    · rintro ⟨⟩
      exact ⟨seq, row, getElem?_put.mpr (.inr ⟨rfl, inside, rfl⟩), rfl, isRow.key⟩
  · simp only [Overlay.put, Function.update_of_ne same, sound.pending_eq_some_iff]
    constructor
    · rintro ⟨seq', t, there, rfl, key⟩
      rcases getElem?_put.mp there with ⟨_, old⟩ | ⟨_, _, new⟩
      · exact ⟨seq', t, old, rfl, key⟩
      · cases new
        exact absurd (Option.some.inj (key.symm.trans isRow.key)) same
    · rintro ⟨seq', t, there, rfl, key⟩
      refine ⟨seq', t, getElem?_put.mpr (.inl ⟨?_, there⟩), rfl, key⟩
      rintro rfl
      rw [there_was] at there
      cases there
      exact same (Option.some.inj (key.symm.trans key_was))

/-- A pending delete takes the place of whatever was queued under the key. -/
theorem kill_spec (sound : c.Sound) (free : k ∉ c.overlay.sticky) {upserts : List (Option Tuple)}
    (rest : ∀ (i : Nat) (t : Tuple), upserts[i]? = some (some t) ↔
      c.upserts[i]? = some (some t) ∧ c.layout.keyTexts t.toCells ≠ some k) :
    let c' := { c with upserts := upserts, map := c.map.insert (K.ofKey k) .delete }
    c'.Sound ∧ c'.overlay = c.overlay.drop k := by
  intro c'
  have slots : ∀ j, c'.slot j = if j = k then some .delete else c.slot j :=
    fun j => slot_insert c k j _
  have sound' : c'.Sound := by
    refine ⟨sound.canonical_insert k _, ?_, ?_, ?_, sound.fits⟩
    · intro j seq d held
      rw [slots] at held
      split at held
      · cases held
      · rename_i ne
        obtain ⟨t, there, key⟩ := sound.queued j seq d held
        refine ⟨t, (rest seq t).mpr ⟨there, fun at_k => ne ?_⟩, key⟩
        exact Option.some.inj (key.symm.trans at_k)
    · intro seq t there
      obtain ⟨there, ne⟩ := (rest seq t).mp there
      obtain ⟨j, rowJ, known⟩ := sound.filed seq t there
      have ne_key : j ≠ k := by
        rintro rfl
        exact ne rowJ.key
      refine ⟨j, rowJ, ?_⟩
      rwa [slots, if_neg ne_key]
    · intro i j t u k' there there'
      exact sound.distinct i j t u k' ((rest i t).mp there).1 ((rest j u).mp there').1
  refine ⟨sound', overlay_ext rfl ?_ ?_ ?_ rfl⟩
  · ext j
    simp only [overlay, Overlay.drop, Set.mem_ofPred_eq, slots, Set.mem_insert_iff]
    split
    · rename_i same
      simp [same, Slot.del]
    · rename_i ne
      simp [ne]
  · funext j
    apply Option.ext
    intro r
    rw [sound'.pending_eq_some_iff]
    by_cases same : j = k
    · subst same
      simp only [Overlay.drop, Function.update_self, reduceCtorEq, iff_false]
      rintro ⟨seq, t, there, rfl, key⟩
      exact ((rest seq t).mp there).2 key
    · simp only [Overlay.drop, Function.update_of_ne same, sound.pending_eq_some_iff]
      constructor
      · rintro ⟨seq, t, there, rfl, key⟩
        exact ⟨seq, t, ((rest seq t).mp there).1, rfl, key⟩
      · rintro ⟨seq, t, there, rfl, key⟩
        refine ⟨seq, t, (rest seq t).mpr ⟨there, fun at_k => same ?_⟩, rfl, key⟩
        exact Option.some.inj (key.symm.trans at_k)
  · ext j
    simp only [overlay, Overlay.drop, Set.mem_ofPred_eq, slots] at free ⊢
    split
    · rename_i same
      simpa [same] using free
    · rfl

/-- A delete of a key that has not gone to the tail. -/
theorem putDelete_spec (sound : c.Sound) (free : k ∉ c.overlay.sticky) :
    (c.putDelete (K.ofKey k)).Sound ∧
      (c.putDelete (K.ofKey k)).overlay = c.overlay.drop k := by
  unfold putDelete
  cases held : c.map.lookup (K.ofKey k) with
  | none =>
      refine kill_spec sound free fun i t => ?_
      have not_filed := sound.not_filed (.inl held) i t
      exact ⟨fun there => ⟨there, not_filed there⟩, And.left⟩
  | some s =>
      cases s with
      | residue d => exact absurd ⟨d, held⟩ free
      | delete =>
          refine ⟨sound, overlay_ext rfl ?_ ?_ rfl rfl⟩
          · have dead : k ∈ c.overlay.dropped := by
              simp [overlay, slot, held, Slot.del]
            exact (Set.insert_eq_of_mem dead).symm
          · have none_pending : c.overlay.pending k = none := by
              rw [Option.eq_none_iff_forall_not_mem]
              intro r pending
              obtain ⟨seq, t, there, rfl, key⟩ := sound.pending_eq_some_iff.mp pending
              exact sound.not_filed (.inr held) seq t there key
            exact (Function.update_eq_self_iff.mpr none_pending.symm).symm
      | upsert seq d =>
          refine kill_spec sound free fun i t => ?_
          obtain ⟨was, there_was, key_was⟩ := sound.queued k seq d held
          rw [getElem?_put]
          constructor
          · rintro (⟨ne, there⟩ | ⟨_, _, absent⟩)
            · exact ⟨there, fun key => ne (sound.distinct _ _ _ _ _ there there_was key key_was)⟩
            · cases absent
          · rintro ⟨there, ne⟩
            refine .inl ⟨?_, there⟩
            rintro rfl
            rw [there_was] at there
            cases there
            exact ne key_was

/-- The image queued for a key that has not gone to the tail. -/
theorem Sound.pending_iff_slot (sound : c.Sound) (free : k ∉ c.overlay.sticky) {r : List Cell} :
    c.overlay.pending k = some r ↔
      ∃ seq d t, c.slot k = some (.upsert seq d) ∧ c.upserts[seq]? = some (some t) ∧
        t.toCells = r := by
  rw [sound.pending_eq_some_iff]
  constructor
  · rintro ⟨seq, t, there, rfl, key⟩
    obtain ⟨j, isRow, known⟩ := sound.filed seq t there
    obtain rfl : j = k := Option.some.inj (isRow.key.symm.trans key)
    obtain ⟨d, held⟩ := known.resolve_right free
    exact ⟨seq, d, t, held, there, rfl⟩
  · rintro ⟨seq, d, t, held, there, rfl⟩
    obtain ⟨t', there', key⟩ := sound.queued k seq d held
    rw [there] at there'
    cases there'
    exact ⟨seq, t, there, rfl, key⟩

/-- A full old image tells another row from the one queued under its key. -/
theorem Sound.otherRow_iff (sound : c.Sound) {old : Tuple} {full : Bool} :
    c.otherRow full old (K.ofKey k) = true ↔
      full = true ∧ k ∉ c.overlay.sticky ∧ ∃ r, c.overlay.pending k = some r ∧ r ≠ old.toCells := by
  unfold otherRow
  rw [Bool.and_eq_true, and_congr_right_iff]
  intro _
  by_cases free : k ∈ c.overlay.sticky
  · obtain ⟨d, held⟩ := free
    have held' : c.map.lookup (K.ofKey k) = some (.residue d) := held
    simp only [held', Bool.false_eq_true, false_iff, not_and]
    exact fun free => absurd ⟨d, held⟩ free
  · simp only [free, not_false_eq_true, true_and, sound.pending_iff_slot free]
    constructor
    · intro differs
      split at differs
      · rename_i seq d held
        split at differs
        · rename_i up there
          exact ⟨up.toCells, ⟨seq, d, up, held, there, rfl⟩, of_decide_eq_true differs⟩
        · cases differs
      · cases differs
    · rintro ⟨r, ⟨seq, d, t, held, there, rfl⟩, differs⟩
      have held' : c.map.lookup (K.ofKey k) = some (.upsert seq d) := held
      simp only [held', there, Tuple.views_eq, ne_eq, differs, not_false_eq_true, decide_true]

/-- The pre-window row at a key goes, whatever is queued there. -/
theorem doom_spec (sound : c.Sound) {seq : Nat} {d : Bool}
    (held : c.slot k = some (.upsert seq d)) :
    let c' := { c with map := c.map.insert (K.ofKey k) (.upsert seq true) }
    c'.Sound ∧ c'.overlay = c.overlay.doom k := by
  intro c'
  have slots : ∀ j, c'.slot j = if j = k then some (.upsert seq true) else c.slot j :=
    fun j => slot_insert c k j _
  have sound' : c'.Sound := by
    refine ⟨sound.canonical_insert k _, ?_, ?_, sound.distinct, sound.fits⟩
    · intro j seq' d' held'
      rw [slots] at held'
      split at held'
      · rename_i same
        cases held'
        exact same ▸ sound.queued k seq d held
      · exact sound.queued j seq' d' held'
    · intro seq' t there
      obtain ⟨j, isRow, known⟩ := sound.filed seq' t there
      refine ⟨j, isRow, ?_⟩
      rw [slots]
      split
      · rename_i same
        subst same
        rw [held] at known
        rcases known with ⟨d', same⟩ | ⟨d', same⟩
        · cases same
          exact .inl ⟨true, rfl⟩
        · cases same
      · exact known
  refine ⟨sound', overlay_ext rfl ?_ rfl ?_ rfl⟩
  · ext j
    simp only [overlay, Overlay.doom, Set.mem_ofPred_eq, slots, Set.mem_insert_iff]
    split
    · rename_i same
      simp [same, Slot.del]
    · rename_i ne
      simp [ne]
  · ext j
    simp only [overlay, Overlay.doom, Set.mem_ofPred_eq, slots]
    split
    · rename_i same
      simp [same, held]
    · rfl

/-- One more op at the end of the tail. -/
theorem pushResidue_spec (sound : c.Sound) {op : ResidueOp} (fits : op.Fits c.layout) :
    (c.pushResidue op).Sound ∧ (c.pushResidue op).overlay = c.overlay.defer op ∅ := by
  refine ⟨⟨sound.canonical, sound.queued, sound.filed, sound.distinct, ?_⟩, ?_⟩
  · intro op' mem
    rcases List.mem_append.mp mem with old | new
    · exact sound.fits op' old
    · rw [List.mem_singleton.mp new]
      exact fits
  · rw [Overlay.defer, Overlay.stick_of_subset (Set.empty_subset _)]
    rfl

/-- A key that goes to the tail keeps its queued image and its pending delete. -/
theorem stick_spec (sound : c.Sound) :
    let c' := { c with map := c.map.insert (K.ofKey k) (.residue ((c.slot k).any Slot.del)) }
    c'.Sound ∧ c'.overlay = c.overlay.stick {k} := by
  intro c'
  have slots : ∀ j, c'.slot j =
      if j = k then some (.residue ((c.slot k).any Slot.del)) else c.slot j :=
    fun j => slot_insert c k j _
  have sound' : c'.Sound := by
    refine ⟨sound.canonical_insert k _, ?_, ?_, sound.distinct, sound.fits⟩
    · intro j seq d held
      rw [slots] at held
      split at held
      · cases held
      · exact sound.queued j seq d held
    · intro seq t there
      obtain ⟨j, rowJ, known⟩ := sound.filed seq t there
      refine ⟨j, rowJ, ?_⟩
      rw [slots]
      split
      · exact .inr ⟨_, rfl⟩
      · exact known
  refine ⟨sound', overlay_ext rfl ?_ rfl ?_ rfl⟩
  · ext j
    simp only [overlay, Overlay.stick, Set.mem_ofPred_eq, slots]
    split
    · rename_i same
      subst same
      rfl
    · rfl
  · ext j
    simp only [overlay, Overlay.stick, Set.mem_ofPred_eq, slots, Set.mem_union,
      Set.mem_singleton_iff]
    split
    · rename_i same
      simp [same]
    · rename_i ne
      simp [ne]

end steps

/-- The collapser `c'` is sound, over the same layout, and stands for `o`. -/
structure StandsFor (c' : Collapser) (l : Layout) (o : Overlay Key (List Cell) ResidueOp) :
    Prop where
  sound : c'.Sound
  layout : c'.layout = l
  overlay : c'.overlay = o

section events

variable {c : Collapser} {l : Layout} {o : Overlay Key (List Cell) ResidueOp} {k : Key}
variable {row : Tuple}

theorem standsFor_new (l : Layout) : (new l).StandsFor l .empty :=
  ⟨sound_new l, rfl, overlay_new l⟩

theorem StandsFor.at' (stands : c.StandsFor l o) (pos : Nat) : (c.at' pos).StandsFor l o :=
  ⟨⟨stands.sound.canonical, stands.sound.queued, stands.sound.filed, stands.sound.distinct,
    stands.sound.fits⟩, stands.layout, stands.overlay⟩

theorem StandsFor.count (stands : c.StandsFor l o) (n : Nat) :
    { c with events := n }.StandsFor l o :=
  ⟨⟨stands.sound.canonical, stands.sound.queued, stands.sound.filed, stands.sound.distinct,
    stands.sound.fits⟩, stands.layout, stands.overlay⟩

theorem mem_sticky {c : Collapser} {k : Key} :
    k ∈ c.overlay.sticky ↔ ∃ d, c.map.lookup (K.ofKey k) = some (.residue d) := Iff.rfl

/-- An op pushed for a key that is already in the tail. -/
theorem StandsFor.pushResidue (stands : c.StandsFor l o) {op : ResidueOp} (fits : op.Fits l)
    {F : Set Key} (held : F ⊆ o.sticky) :
    (c.pushResidue op).StandsFor l (o.defer op F) := by
  obtain ⟨sound, rfl, rfl⟩ := stands
  obtain ⟨sound', overlay'⟩ := pushResidue_spec sound fits
  refine ⟨sound', rfl, ?_⟩
  rw [overlay', Overlay.defer, Overlay.defer, Overlay.stick_of_subset (Set.empty_subset _),
    Overlay.stick_of_subset]
  exact held

theorem StandsFor.putDelete (stands : c.StandsFor l o) (k : Key) :
    (c.putDelete (K.ofKey k)).StandsFor l (o.erase k (.delete k)) := by
  by_cases held : k ∈ o.sticky
  · rw [Overlay.erase, if_pos held]
    obtain ⟨d, at_k⟩ := mem_sticky.mp (stands.overlay ▸ held)
    have fits : (ResidueOp.delete k).Fits l := trivial
    have pushed := stands.pushResidue fits (Set.singleton_subset_iff.mpr held)
    simpa only [Collapser.putDelete, at_k, K.materialize_ofKey] using pushed
  · rw [Overlay.erase, if_neg held]
    obtain ⟨sound', overlay'⟩ := putDelete_spec stands.sound (stands.overlay ▸ held)
    refine ⟨sound', ?_, stands.overlay ▸ overlay'⟩
    rw [← stands.layout]
    unfold Collapser.putDelete
    split <;> rfl

/-- A full old image that is not the queued row leaves the queued row alone. -/
theorem StandsFor.killOld_other (stands : c.StandsFor l o) {old : Tuple} {r : List Cell}
    (free : k ∉ o.sticky) (pending : o.pending k = some r) (differs : r ≠ old.toCells) :
    (c.killOld true old (K.ofKey k)).StandsFor l (o.doom k) := by
  obtain ⟨sound, rfl, rfl⟩ := stands
  obtain ⟨seq, d, t, held, _, _⟩ := (sound.pending_iff_slot free).mp pending
  have held' : c.map.lookup (K.ofKey k) = some (.upsert seq d) := held
  rw [killOld, if_pos (sound.otherRow_iff.mpr ⟨rfl, free, r, pending, differs⟩)]
  simp only [held']
  obtain ⟨sound', overlay'⟩ := doom_spec sound held
  exact ⟨sound', rfl, overlay'⟩

/-- Any other row at the old key is the one the window knows of. -/
theorem StandsFor.killOld_known (stands : c.StandsFor l o) {old : Tuple} {full : Bool}
    (known : full = true → k ∉ o.sticky → ∀ r, o.pending k = some r → r = old.toCells) :
    (c.killOld full old (K.ofKey k)).StandsFor l (o.erase k (.delete k)) := by
  rw [killOld, if_neg]
  · exact stands.putDelete k
  · rw [stands.sound.otherRow_iff, stands.overlay]
    rintro ⟨is_full, free, r, pending, differs⟩
    exact differs (known is_full free r pending)

/-- A whole image, from an insert or an update. -/
theorem StandsFor.putImage_whole (stands : c.StandsFor l o) (isRow : l.IsRow k row.toCells) :
    (c.putImage (K.ofKey k) row).StandsFor l (o.write k row.toCells (.upsert row.toCells)) := by
  have whole : row.hasToast = false := by
    rw [← Bool.not_eq_true, Tuple.hasToast_iff]
    exact isRow.whole
  by_cases held : k ∈ o.sticky
  · rw [Overlay.write, if_pos held]
    obtain ⟨d, at_k⟩ := mem_sticky.mp (stands.overlay ▸ held)
    have fits : (ResidueOp.upsert row.toCells).Fits l := ⟨k, isRow⟩
    have pushed := stands.pushResidue fits (Set.singleton_subset_iff.mpr held)
    simpa only [putImage, at_k, whole, Bool.false_eq_true, if_false] using pushed
  · rw [Overlay.write, if_neg held]
    obtain ⟨sound, rfl, rfl⟩ := stands
    unfold putImage
    cases at_k : c.map.lookup (K.ofKey k) with
    | none =>
        simp only [whole]
        obtain ⟨sound', overlay'⟩ := pushUpsert_spec sound isRow (.inl ⟨at_k, rfl⟩)
        exact ⟨sound', rfl, overlay'⟩
    | some s =>
        cases s with
        | residue d => exact absurd ⟨d, at_k⟩ held
        | delete =>
            simp only [whole]
            obtain ⟨sound', overlay'⟩ := pushUpsert_spec sound isRow (.inr ⟨at_k, rfl⟩)
            exact ⟨sound', rfl, overlay'⟩
        | upsert seq d =>
            simp only [whole]
            obtain ⟨sound', overlay'⟩ := replace_spec sound isRow at_k
            exact ⟨sound', rfl, overlay'⟩

/-- An insert files its image as an update's whole image is filed. -/
theorem insert_eq (c : Collapser) {row : Tuple} (isRow : c.layout.IsRow k row.toCells) :
    c.insert row = .ok ({ c with events := c.events + 1 }.putImage (K.ofKey k) row) := by
  have whole : row.hasToast = false := by
    rw [← Bool.not_eq_true, Tuple.hasToast_iff]
    exact isRow.whole
  unfold insert putImage
  simp only [keyOfRow_eq isRow.key, Except.map, whole]
  cases c.map.lookup (K.ofKey k) with
  | none => rfl
  | some s => cases s <;> rfl

theorem StandsFor.stick (stands : c.StandsFor l o) (k : Key) :
    { c with map := c.map.insert (K.ofKey k) (.residue ((c.slot k).any Slot.del)) }.StandsFor l
      (o.stick {k}) := by
  obtain ⟨sound, rfl, rfl⟩ := stands
  obtain ⟨sound', overlay'⟩ := stick_spec (k := k) sound
  exact ⟨sound', rfl, overlay'⟩

/-- A masked image of a row that keeps its key. -/
theorem StandsFor.putImage_masked (stands : c.StandsFor l o) (toast : row.hasToast = true)
    (fits : (ResidueOp.maskedUpdate k row.toCells).Fits l) :
    (c.putImage (K.ofKey k) row).StandsFor l (o.defer (.maskedUpdate k row.toCells) {k}) := by
  have pushed := stands.pushResidue fits (Set.empty_subset _)
  have stuck := pushed.stick k
  rw [Overlay.stick_defer_empty] at stuck
  unfold putImage
  simp only [K.materialize_ofKey, toast]
  cases at_k : c.map.lookup (K.ofKey k) with
  | none => simpa [slot, Collapser.pushResidue, at_k] using stuck
  | some s =>
      cases s with
      | residue d =>
          have held : k ∈ o.sticky := stands.overlay ▸ mem_sticky.mpr ⟨d, at_k⟩
          exact stands.pushResidue fits (Set.singleton_subset_iff.mpr held)
      | delete => simpa [slot, Collapser.pushResidue, at_k] using stuck
      | upsert seq d => simpa [slot, Collapser.pushResidue, at_k] using stuck

/-- A masked image of a row that leaves its key. -/
theorem StandsFor.moveMasked (stands : c.StandsFor l o) {j : Key} (ne : k ≠ j)
    (fits : (ResidueOp.rekey j k row.toCells).Fits l) :
    (c.moveMasked (K.ofKey j) (K.ofKey k) row).StandsFor l
      (o.defer (.rekey j k row.toCells) {j, k}) := by
  have pushed := stands.pushResidue fits (Set.empty_subset _)
  have stuck := (pushed.stick j).stick k
  rw [Overlay.stick_stick, Overlay.stick_defer_empty, Set.union_comm, Set.singleton_union] at stuck
  unfold Collapser.moveMasked
  simp only [K.materialize_ofKey]
  simpa [slot, Collapser.pushResidue, ne] using stuck

theorem StandsFor.truncate (stands : c.StandsFor l o) : c.truncate.StandsFor l o.clear := by
  refine ⟨⟨?_, ?_, ?_, ?_, ?_⟩, stands.layout, ?_⟩
  · intro x mem
    simp [Collapser.truncate] at mem
  · intro k seq d held
    simp [Collapser.truncate, slot] at held
  · intro seq t there
    simp [Collapser.truncate] at there
  · intro i j t u k there
    simp [Collapser.truncate] at there
  · intro op mem
    cases mem
  · simp [Collapser.overlay, Collapser.truncate, slot, images, Overlay.clear, Overlay.empty,
      List.reduceOption_nil]

end events

section finish

variable {c : Collapser} {k : Key}

theorem Sound.mem_entries_iff (sound : c.Sound) {e : Sigma fun _ : K => Slot} :
    e ∈ c.map.entries ↔ ∃ k, e.1 = K.ofKey k ∧ c.slot k = some e.2 := by
  rw [← AList.mem_lookup_iff]
  constructor
  · intro held
    have known : e.1 ∈ c.map := AList.lookup_isSome.mp (Option.isSome_of_mem held)
    obtain ⟨k, same⟩ := sound.canonical e.1 known
    exact ⟨k, same, by rw [slot, ← same]; exact held⟩
  · rintro ⟨k, same, held⟩
    rw [same]
    exact held

/-- The delete set is the dropped keys. -/
theorem Sound.mem_deletes (sound : c.Sound) :
    k ∈ c.finish.deletes ↔ k ∈ c.overlay.dropped := by
  simp only [finish, List.mem_filterMap, sound.mem_entries_iff, overlay, Set.mem_ofPred_eq]
  constructor
  · rintro ⟨e, ⟨j, same, held⟩, kept⟩
    split at kept
    · rename_i del
      cases kept
      rw [same, K.materialize_ofKey, held]
      exact del
    · cases kept
  · intro del
    obtain ⟨s, held, del_s⟩ := (Option.any_eq_true _ _).mp del
    exact ⟨⟨K.ofKey k, s⟩, ⟨k, rfl, held⟩, by simp [del_s]⟩

/-- Each deleted key once. -/
theorem Sound.nodup_deletes (sound : c.Sound) : c.finish.deletes.Nodup := by
  have keys : (c.map.entries.map Sigma.fst).Nodup := c.map.nodupKeys
  rw [List.Nodup, List.pairwise_map] at keys
  unfold List.Nodup
  simp only [finish, List.pairwise_filterMap]
  refine keys.imp_of_mem fun {e e'} mem mem' ne j kept j' kept' => ?_
  obtain ⟨k, same, _⟩ := sound.mem_entries_iff.mp mem
  obtain ⟨k', same', _⟩ := sound.mem_entries_iff.mp mem'
  rw [same, same', ne_eq, K.ofKey_inj] at ne
  have at_j : j = k := by
    split at kept
    · simpa [same] using kept.symm
    · cases kept
  have at_j' : j' = k' := by
    split at kept'
    · simpa [same'] using kept'.symm
    · cases kept'
  rw [at_j, at_j']
  exact ne

theorem upserts_finish (c : Collapser) : c.finish.upserts.map Tuple.toCells = c.images := rfl

theorem Sound.isRow_of_mem_images (sound : c.Sound) {r : List Cell} (mem : r ∈ c.images) :
    ∃ k, c.layout.IsRow k r := by
  obtain ⟨seq, t, there, rfl⟩ := mem_images.mp mem
  obtain ⟨k, isRow, _⟩ := sound.filed seq t there
  exact ⟨k, isRow⟩

/-- No two queued images share a key. -/
theorem Sound.pairwise_images (sound : c.Sound) :
    c.images.Pairwise fun r r' => c.layout.keyTexts r ≠ c.layout.keyTexts r' := by
  rw [images, List.pairwise_map, List.reduceOption, List.pairwise_filterMap,
    List.pairwise_iff_getElem]
  intro i j inside inside' before t at_i u at_j same
  have there : c.upserts[i]? = some (some t) := by
    rw [List.getElem?_eq_getElem inside, ← at_i, id]
  have there' : c.upserts[j]? = some (some u) := by
    rw [List.getElem?_eq_getElem inside', ← at_j, id]
  obtain ⟨k, isRow, _⟩ := sound.filed i t there
  have eq := sound.distinct i j t u k there there' isRow.key (same ▸ isRow.key)
  omega

/-- A sound collapser's window always seals. -/
theorem Sound.rowsFit (sound : c.Sound) :
    WindowBody.rowsFit c.finish c.layout.cols.length = .ok () := by
  change Collapsed.rowsFit _ _ = _
  unfold Collapsed.rowsFit
  split
  · rename_i got found
    exfalso
    have wrong : got ≠ c.layout.cols.length := by simpa using List.find?_some found
    rcases List.mem_append.mp (List.mem_of_find?_eq_some found) with up | op
    · obtain ⟨t, mem, rfl⟩ := List.mem_map.mp up
      obtain ⟨k, isRow⟩ := sound.isRow_of_mem_images (List.mem_map_of_mem mem)
      exact wrong (by simpa using isRow.width)
    · obtain ⟨op, mem, got_eq⟩ := List.mem_filterMap.mp op
      have fits := sound.fits op mem
      cases op with
      | maskedUpdate key row =>
          cases got_eq
          exact wrong fits.1
      | upsert row =>
          cases got_eq
          obtain ⟨k, isRow⟩ := fits
          exact wrong isRow.width
      | delete key => cases got_eq
      | rekey oldKey newKey row =>
          cases got_eq
          exact wrong fits.1
  · rfl

/-- A sound collapser's window, sealed. -/
theorem Sound.seal (sound : c.Sound) (table : String) :
    c.seal table = .ok ⟨c.layout, c.finish, sound.rowsFit⟩ :=
  TableWindow.seal_ok sound.rowsFit

end finish

end Collapser

end Apitap
