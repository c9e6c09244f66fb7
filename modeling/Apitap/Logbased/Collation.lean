import Apitap.Foundation.Coarsen
import Apitap.Logbased.DestMy
import Apitap.Logbased.Filing

/-!
# The MySQL apply under a collation

The collapser tells keys apart by their bytes, the destination by their weights. The
apply of a window is the collapser's overlay seen through the weights, as long as no
write is filed in the set phases under a key that has the weight of another key in the
tail: that write would run before the tail ops it comes after.
-/

namespace Apitap

open Foundation DestPg

namespace DestMy

variable {ω : Type} [DecidableEq ω] (weight : Key → ω) (l : Layout)

/-- Every row is whole and filed under its own key's weight. -/
def Keyed (T : MyTable ω) : Prop := ∀ x r, T x = some r → ∃ k, weight k = x ∧ l.IsRow k r

/-- What an op of the tail means by weight: the row it finds has the key it names. -/
def step : ResidueOp → MyTable ω → Except Unit (MyTable ω)
  | .maskedUpdate key row, T =>
      match T (weight key) with
      | some cur =>
          if l.keyTexts cur = some key then .ok (Function.update T (weight key)
            (some (patch row cur)))
          else .error ()
      | none => .error ()
  | .upsert row, T =>
      match l.keyTexts row with
      | some k =>
          if ∀ cur, T (weight k) = some cur → l.keyTexts cur = some k then
            .ok (Function.update T (weight k) (some row))
          else .error ()
      | none => .error ()
  | .delete key, T => .ok (Function.update T (weight key) none)
  | .rekey oldKey newKey row, T =>
      match T (weight oldKey) with
      | some cur =>
          if l.keyTexts cur = some oldKey ∧
            (weight newKey = weight oldKey ∨ T (weight newKey) = none) then
            .ok (Function.update (Function.update T (weight oldKey) none) (weight newKey)
              (some (patch row cur)))
          else .error ()
      | none => .error ()

section step

variable {weight l} {T T' : MyTable ω} {op : ResidueOp} {j k : Key} {row cur : List Cell}

theorem step_maskedUpdate (held : T (weight k) = some cur) (key : l.keyTexts cur = some k) :
    step weight l (.maskedUpdate k row) T = .ok (Function.update T (weight k)
      (some (patch row cur))) := by
  simp only [step, held, key, if_true]

theorem step_upsert (key : l.keyTexts row = some k)
    (own : ∀ cur, T (weight k) = some cur → l.keyTexts cur = some k) :
    step weight l (.upsert row) T = .ok (Function.update T (weight k) (some row)) := by
  simp only [step, key]
  rw [if_pos own]

theorem step_rekey (held : T (weight j) = some cur) (key : l.keyTexts cur = some j)
    (free : weight k = weight j ∨ T (weight k) = none) :
    step weight l (.rekey j k row) T =
      .ok (Function.update (Function.update T (weight j) none) (weight k)
        (some (patch row cur))) := by
  simp only [step, held]
  rw [if_pos ⟨key, free⟩]

/-- An op reads and writes the weights of the keys it names only. -/
theorem confined_step (op : ResidueOp) : Confined (weight '' op.keys l) (step weight l op) := by
  intro T U same
  cases op with
  | maskedUpdate key row =>
      have own : weight key ∈ weight '' ResidueOp.keys l (.maskedUpdate key row) :=
        ⟨key, Set.mem_singleton key, rfl⟩
      have at_key : U (weight key) = T (weight key) := (same own).symm
      simp only [step, at_key]
      cases T (weight key) with
      | none => rfl
      | some cur =>
          simp only
          split
          · simp only [Except.map, piecewise_update same own]
          · rfl
  | upsert row =>
      simp only [step]
      cases key : l.keyTexts row with
      | none => rfl
      | some k =>
          have own : weight k ∈ weight '' ResidueOp.keys l (.upsert row) := ⟨k, key, rfl⟩
          have at_key : U (weight k) = T (weight k) := (same own).symm
          simp only [at_key]
          split
          · simp only [Except.map, piecewise_update same own]
          · rfl
  | delete key =>
      have own : weight key ∈ weight '' ResidueOp.keys l (.delete key) :=
        ⟨key, Set.mem_singleton key, rfl⟩
      simp only [step, Except.map, piecewise_update same own]
  | rekey oldKey newKey row =>
      have in_old : weight oldKey ∈ weight '' ResidueOp.keys l (.rekey oldKey newKey row) :=
        ⟨oldKey, Set.mem_insert .., rfl⟩
      have in_new : weight newKey ∈ weight '' ResidueOp.keys l (.rekey oldKey newKey row) :=
        ⟨newKey, Set.mem_insert_of_mem _ rfl, rfl⟩
      have at_old : U (weight oldKey) = T (weight oldKey) := (same in_old).symm
      have at_new : U (weight newKey) = T (weight newKey) := (same in_new).symm
      simp only [step, at_old, at_new]
      cases T (weight oldKey) with
      | none => rfl
      | some cur =>
          simp only
          split
          · simp only [Except.map, Except.ok.injEq]
            refine (piecewise_update_of (eqOn_update same _ none) ?_ in_new _).symm
            intro x outside
            rw [Function.update_of_ne]
            rintro rfl
            exact outside in_old
          · rfl

end step

section apply

variable {weight l} {T T' : MyTable ω} {k : Key} {row cur : List Cell} {destTable : String}

/-- Setting columns of the row found by its key's weight. -/
theorem updateWhere_found {j : Key} {sets : List (String × Cell)} (held : T (weight j) = some cur)
    (key : l.keyTexts (assign l.cols sets cur) = some k)
    (free : weight k = weight j ∨ T (weight k) = none) :
    updateWhere weight l j sets T =
      .ok (Function.update (Function.update T (weight j) none) (weight k)
        (some (assign l.cols sets cur))) := by
  have clear : ¬(weight k ≠ weight j ∧ T (weight k) ≠ none) := fun both => free.elim both.1 both.2
  simp only [updateWhere, held, key]
  rw [if_neg clear]

omit [DecidableEq ω] in
theorem probe_found {kind : String} {moot : Bool} (held : T (weight k) ≠ none) :
    probe weight destTable kind k moot T = .ok T := if_neg fun both => held both.2

/-- The statement an op becomes does what the op means by weight. -/
theorem applyOp_of_step {op : ResidueOp} (fits : op.Fits l) (keyed : Keyed weight l T)
    (means : step weight l op T = .ok T') (moot : Bool) :
    applyOp weight l destTable moot op T = .ok T' := by
  cases op with
  | maskedUpdate key row =>
      simp only [step] at means
      split at means
      · rename_i cur held
        split at means
        · rename_i own
          cases means
          obtain ⟨k, _, isRow⟩ := keyed _ cur held
          obtain rfl : k = key := Option.some.inj (isRow.key.symm.trans own)
          have skipped := skipped_agree fits.2 isRow.key
          have assigned := assign_setList l.cols_nodup fits.1 isRow.width skipped
          simp only [applyOp]
          split
          · rename_i nothing
            rw [patch_of_setList_nil l.cols_nodup fits.1 isRow.width skipped nothing, ← held,
              Function.update_eq_self]
          · have key := Layout.keyTexts_patch fits.2 cur
            rw [updateWhere_found held (assigned ▸ key) (.inl rfl), assigned, Function.update_idem]
            exact probe_found (by rw [Function.update_self]; intro is; cases is)
        · cases means
      · cases means
  | upsert row =>
      obtain ⟨k, isRow⟩ := fits
      simp only [step, isRow.key] at means
      split at means
      · rename_i own
        cases means
        simp only [applyOp, upsertRow, map_bindOf_of_whole isRow.whole, isRow.key]
        cases held : T (weight k) with
        | none => rfl
        | some cur =>
            obtain ⟨k', _, isRow'⟩ := keyed _ cur held
            obtain rfl : k' = k := Option.some.inj (isRow'.key.symm.trans (own cur held))
            have skipped := skipped_agree isRow.key isRow'.key
            have new := patch_of_whole cur isRow.whole
            simp only
            split
            · rename_i nothing
              have same := patch_of_setList_nil l.cols_nodup isRow.width isRow'.width
                skipped nothing
              rw [← new, same, ← held, Function.update_eq_self]
            · rw [assign_setList l.cols_nodup isRow.width isRow'.width skipped, new]
      · cases means
  | delete key =>
      cases means
      rfl
  | rekey oldKey newKey row =>
      simp only [step] at means
      split at means
      · rename_i cur held
        split at means
        · rename_i both
          cases means
          obtain ⟨own, free⟩ := both
          obtain ⟨k, _, isRow⟩ := keyed _ cur held
          have noneSkipped : ∀ (i : Nat) (name : String), l.cols[i]? = some name → false = true →
              row[i]? = cur[i]? := fun _ _ _ skipped => (by cases skipped)
          have assigned := assign_setList l.cols_nodup fits.1 isRow.width noneSkipped
          have key := Layout.keyTexts_patch fits.2 cur
          simp only [applyOp]
          split
          · rename_i nothing
            have unmoved := patch_of_setList_nil l.cols_nodup fits.1 isRow.width noneSkipped nothing
            rw [unmoved, own, Option.some.injEq] at key
            subst key
            rw [unmoved, Function.update_idem, ← held, Function.update_eq_self]
          · rw [updateWhere_found held (assigned ▸ key) free, assigned]
            exact probe_found (by rw [Function.update_self]; intro is; cases is)
        · cases means
      · cases means

/-- An op of the tail keeps rows under their keys' weights. -/
theorem keyed_step {op : ResidueOp} (fits : op.Fits l) (keyed : Keyed weight l T)
    (means : step weight l op T = .ok T') : Keyed weight l T' := by
  have put : ∀ {T : MyTable ω} {k : Key} {r : List Cell}, Keyed weight l T → l.IsRow k r →
      Keyed weight l (Function.update T (weight k) (some r)) := by
    intro T k r keyed isRow x r' held
    by_cases at_ : x = weight k
    · rw [at_, Function.update_self] at held
      exact ⟨k, at_.symm, Option.some.inj held ▸ isRow⟩
    · rw [Function.update_of_ne at_] at held
      exact keyed x r' held
  have erase : ∀ {T : MyTable ω} (y : ω), Keyed weight l T → Keyed weight l
    (Function.update T y none) := by
    intro T y keyed x r' held
    by_cases at_ : x = y
    · rw [at_, Function.update_self] at held
      cases held
    · rw [Function.update_of_ne at_] at held
      exact keyed x r' held
  cases op with
  | maskedUpdate key row =>
      simp only [step] at means
      split at means
      · rename_i cur held
        split at means
        · cases means
          obtain ⟨k, _, isRow⟩ := keyed _ cur held
          exact put keyed (Layout.isRow_patch fits.1 fits.2 isRow)
        · cases means
      · cases means
  | upsert row =>
      obtain ⟨k, isRow⟩ := fits
      simp only [step, isRow.key] at means
      split at means
      · cases means
        exact put keyed isRow
      · cases means
  | delete key =>
      cases means
      exact erase _ keyed
  | rekey oldKey newKey row =>
      simp only [step] at means
      split at means
      · rename_i cur held
        split at means
        · cases means
          obtain ⟨k, _, isRow⟩ := keyed _ cur held
          exact put (erase _ keyed) (Layout.isRow_patch fits.1 fits.2 isRow)
        · cases means
      · cases means

/-- The tail, statement by statement, does what its ops mean. -/
theorem applyTail_of_runOps {ops : List (ResidueOp × Bool)} (fits : ∀ op ∈ ops, op.1.Fits l)
    (keyed : Keyed weight l T) (means : runOps (step weight l) (ops.map Prod.fst) T = .ok T')
    (destTable : String) :
    (ops.map fun op => Stmt.residue op.1 op.2).foldlM (fun T s =>
      exec weight l destTable s T) T = .ok T' := by
  induction ops generalizing T with
  | nil => exact congrArg _ (Except.ok.inj means)
  | cons op ops ih =>
      simp only [List.map_cons, runOps_cons] at means
      cases ran : step weight l op.1 T with
      | error e => simp [ran, Except.bind] at means
      | ok T₁ =>
          simp only [ran, Except.bind] at means
          have here : applyOp weight l destTable op.2 op.1 T = .ok T₁ :=
            applyOp_of_step (fits op (.head _)) keyed ran op.2
          rw [List.map_cons, List.foldlM_cons]
          change (applyOp weight l destTable op.2 op.1 T).bind _ = _
          rw [here]
          exact ih (fun op' mem => fits op' (.tail _ mem))
            (keyed_step (fits op (.head _)) keyed ran) means

end apply

section phases

variable {weight l} {T : MyTable ω} {destTable : String}

/-- Rows whose keys are free, and distinct by weight, are all added. -/
theorem addRows_spec {missing taken : Error} {rows : List (List Cell)}
    (keyed : ∀ r ∈ rows, ∃ k, l.keyTexts r = some k ∧ T (weight k) = none)
    (distinct : rows.Pairwise fun r r' => (l.keyTexts r).map weight ≠ (l.keyTexts r').map weight) :
    rows.foldlM (addRow weight l missing taken) T =
      .ok fun x => (rows.find? fun r => (l.keyTexts r).map weight = some x).or (T x) := by
  induction rows generalizing T with
  | nil => rfl
  | cons r rows ih =>
      obtain ⟨others, rest⟩ := List.pairwise_cons.mp distinct
      obtain ⟨k, key, free⟩ := keyed r (.head _)
      have added : addRow weight l missing taken T r = .ok (Function.update T (weight k)
        (some r)) := by
        simp only [addRow, key, free, if_true]
      have keyed' : ∀ r' ∈ rows, ∃ j, l.keyTexts r' = some j ∧
          Function.update T (weight k) (some r) (weight j) = none := by
        intro r' mem
        obtain ⟨j, key', free'⟩ := keyed r' (.tail _ mem)
        refine ⟨j, key', ?_⟩
        rw [Function.update_of_ne, free']
        intro same
        exact others r' mem (by rw [key, key', Option.map_some, Option.map_some, same])
      rw [List.foldlM_cons, added]
      change rows.foldlM (addRow weight l missing taken) _ = _
      rw [ih keyed' rest]
      congr 1
      funext x
      by_cases at_x : x = weight k
      · subst at_x
        have gone : rows.find? (fun r' => (l.keyTexts r').map weight = some (weight k)) = none := by
          rw [List.find?_eq_none]
          intro r' mem
          have ne := others r' mem
          rw [key, Option.map_some] at ne
          simpa using Ne.symm ne
        rw [gone, Option.none_or, Function.update_self, List.find?_cons_of_pos (by simp [key]),
          Option.some_or]
      · have ne : ¬ (l.keyTexts r).map weight = some x := by
          rw [key, Option.map_some, Option.some.injEq]
          exact Ne.symm at_x
        rw [Function.update_of_ne at_x, List.find?_cons_of_neg (by simpa using ne)]

theorem mapM_renderMyRow {rows : List Tuple} (whole : ∀ r ∈ rows, .unchangedToast ∉ r.toCells) :
    rows.mapM renderMyRow = .ok (rows.map Tuple.toCells) := mapM_renderCopyRow whole

variable {c : Collapser} {O : Overlay ω (List Cell) ResidueOp}

theorem pending_iff_mem (sound : c.Sound) {k : Key} {r : List Cell} :
    c.overlay.pending k = some r ↔ r ∈ c.images ∧ c.layout.keyTexts r = some k := by
  rw [sound.pending_eq_some_iff, Collapser.mem_images]
  constructor
  · rintro ⟨seq, t, there, is, key⟩
    exact ⟨⟨seq, t, there, is⟩, key⟩
  · rintro ⟨⟨seq, t, there, is⟩, key⟩
    exact ⟨seq, t, there, is, key⟩

omit [DecidableEq ω] in
/-- What is pending at a weight is the queued image with a key of that weight. -/
theorem pending_weight_iff (sound : c.Sound) (along : Overlay.Along weight c.overlay O) {x : ω}
    {r : List Cell} :
    O.pending x = some r ↔ r ∈ c.images ∧ (c.layout.keyTexts r).map weight = some x := by
  simp only [along.pending, pending_iff_mem sound, Option.map_eq_some_iff]
  constructor
  · rintro ⟨k, is, mem, key⟩
    exact ⟨mem, k, key, is⟩
  · rintro ⟨mem, k, key, is⟩
    exact ⟨k, is, mem, key⟩

omit [DecidableEq ω] in
/-- No two queued images have keys of one weight. -/
theorem pairwise_weights (sound : c.Sound) (along : Overlay.Along weight c.overlay O) :
    c.images.Pairwise fun r r' => (c.layout.keyTexts r).map weight ≠
      (c.layout.keyTexts r').map weight := by
  refine sound.pairwise_images.imp_of_mem fun {r r'} mem mem' ne same => ?_
  obtain ⟨k, isRow⟩ := sound.isRow_of_mem_images mem
  have at_ : (c.layout.keyTexts r).map weight = some (weight k) := by
    rw [isRow.key, Option.map_some]
  have here := (pending_weight_iff sound along).mpr ⟨mem, at_⟩
  have there := (pending_weight_iff sound along).mpr ⟨mem', same ▸ at_⟩
  exact ne (by rw [Option.some.inj (here.symm.trans there)])

/-- The images by weight are the pending values. -/
theorem find?_images (sound : c.Sound) (along : Overlay.Along weight c.overlay O) (x : ω) :
    (c.images.find? fun r => (c.layout.keyTexts r).map weight = some x) = O.pending x := by
  cases pending : O.pending x with
  | some r =>
      obtain ⟨mem, at_⟩ := (pending_weight_iff sound along).mp pending
      obtain ⟨r', found⟩ : ∃ r', (c.images.find? fun r => (c.layout.keyTexts r).map weight = some
        x) = some r' := by
        rw [← Option.isSome_iff_exists, List.find?_isSome]
        exact ⟨r, mem, by simpa using at_⟩
      have there : (c.layout.keyTexts r').map weight = some x := by
        simpa using List.find?_some found
      have is := (pending_weight_iff sound along).mpr ⟨List.mem_of_find?_eq_some found, there⟩
      rw [found, ← is, pending]
  | none =>
      rw [List.find?_eq_none]
      intro r mem at_
      have is := (pending_weight_iff sound along).mpr ⟨mem, by simpa using at_⟩
      rw [pending] at is
      cases is

/-- The set phases land the overlay's pending values, as the weights see them. -/
theorem setPhase_eq_base (sound : c.Sound) (along : Overlay.Along weight c.overlay O)
    (T : MyTable ω) :
    c.images.foldlM (insertRow weight c.layout) (deleteJoin weight
      (c.finish.deletes ++ c.finish.upserts.map fun row => rowKeyRefs c.layout.keyIdx row.toCells)
      (if c.finish.truncate = true then fun _ => none else T)) = .ok (O.base T) := by
  generalize started : (if c.finish.truncate = true then fun _ => none else T) = start
  have joined : ∀ x, x ∈ (c.finish.deletes ++
      c.finish.upserts.map fun row => rowKeyRefs c.layout.keyIdx row.toCells).map weight ↔
      x ∈ O.dropped ∨ O.pending x ≠ none := by
    intro x
    rw [List.map_append, List.mem_append, along.dropped]
    refine or_congr ?_ ?_
    · simp only [List.mem_map, sound.mem_deletes, Set.mem_image]
    · rw [List.mem_map]
      simp only [sound.mem_upsertKeys, Option.ne_none_iff_exists', along.pending]
      constructor
      · rintro ⟨k, ⟨r, is⟩, same⟩
        exact ⟨r, k, same, is⟩
      · rintro ⟨r, k, same, is⟩
        exact ⟨k, ⟨r, is⟩, same⟩
  rw [insertRow, addRows_spec ?_ (pairwise_weights sound along)]
  · congr 1
    funext x
    rw [find?_images sound along]
    cases pending : O.pending x with
    | some r => rw [Overlay.base_of_pending pending, Option.some_or]
    | none =>
        rw [Option.none_or]
        by_cases gone : O.cleared = true ∨ x ∈ O.dropped
        · rw [Overlay.base_of_gone pending gone]
          rcases gone with cleared | dropped
          · have emptied : start x = none := by
              rw [← started, if_pos (show c.finish.truncate =
                true from along.cleared.symm.trans cleared)]
            simp [deleteJoin, emptied]
          · exact if_pos ((joined x).mpr (.inl dropped))
        · rw [Overlay.base_of_untouched pending gone]
          rw [not_or] at gone
          have kept : start x = T x := by
            rw [← started, if_neg fun is : c.finish.truncate = true =>
              gone.1 (along.cleared.trans is)]
          have undeleted := (joined x).not.mpr (not_or.mpr ⟨gone.2, not_not.mpr pending⟩)
          exact (if_neg undeleted).trans kept
  · intro r mem
    obtain ⟨k, isRow⟩ := sound.isRow_of_mem_images mem
    have at_ : (c.layout.keyTexts r).map weight = some (weight k) := by
      rw [isRow.key, Option.map_some]
    have is := (pending_weight_iff sound along).mpr ⟨mem, at_⟩
    exact ⟨k, isRow.key, if_pos ((joined _).mpr (.inr (by rw [is]; nofun)))⟩

omit [DecidableEq ω] in
/-- The table the tail starts from has rows under their keys' weights. -/
theorem keyed_base (sound : c.Sound) (along : Overlay.Along weight c.overlay O)
    (keyed : Keyed weight c.layout T) : Keyed weight c.layout (O.base T) := by
  intro x r held
  cases pending : O.pending x with
  | some r' =>
      rw [Overlay.base_of_pending pending] at held
      cases held
      obtain ⟨mem, at_⟩ := (pending_weight_iff sound along).mp pending
      obtain ⟨k, isRow⟩ := sound.isRow_of_mem_images mem
      rw [isRow.key, Option.map_some, Option.some.injEq] at at_
      exact ⟨k, at_, isRow⟩
  | none =>
      by_cases gone : O.cleared = true ∨ x ∈ O.dropped
      · rw [Overlay.base_of_gone pending gone] at held
        cases held
      · rw [Overlay.base_of_untouched pending gone] at held
        exact keyed x r held

/-- The statements before the tail land the pending values. -/
theorem setStatements (sound : c.Sound) (along : Overlay.Along weight c.overlay O) (T : MyTable ω) :
    let keys := c.finish.deletes ++ c.finish.upserts.map fun row =>
      rowKeyRefs c.layout.keyIdx row.toCells
    ((if c.finish.truncate then [Stmt.truncate] else []) ++
      (if c.finish.deletes.isEmpty ∧ c.finish.upserts.isEmpty then [] else [Stmt.deleteJoin keys])
        ++
      (if c.finish.upserts.isEmpty then [] else [Stmt.insertRows c.finish.upserts])).foldlM
        (fun T s => exec weight c.layout destTable s T) T = .ok (O.base T) := by
  intro keys
  have emptied : (if c.finish.truncate then [Stmt.truncate] else []).foldlM
      (fun T s => exec weight c.layout destTable s T) T =
      .ok (if c.finish.truncate = true then fun _ => none else T) := by
    split <;> rfl
  have joined : ∀ start : MyTable ω, (if c.finish.deletes.isEmpty ∧ c.finish.upserts.isEmpty then []
      else [Stmt.deleteJoin keys]).foldlM (fun T s => exec weight c.layout destTable s T) start =
      .ok (deleteJoin weight keys start) := by
    intro start
    split
    · rename_i none_
      have no_keys : keys = [] := by
        simp [keys, List.isEmpty_iff.mp none_.1, List.isEmpty_iff.mp none_.2]
      rw [no_keys]
      exact congrArg Except.ok (funext fun x => (if_neg List.not_mem_nil).symm)
    · rfl
  have rendered : c.finish.upserts.mapM renderMyRow = .ok c.images := by
    rw [← Collapser.upserts_finish]
    refine mapM_renderMyRow fun r mem => ?_
    obtain ⟨k, isRow⟩ := sound.isRow_of_mem_images (List.mem_map_of_mem mem)
    exact isRow.whole
  have loaded : ∃ twin, c.images.foldlM (loadRow weight c.layout) (fun _ => none) = .ok twin := by
    refine ⟨_, addRows_spec (fun r mem => ?_) (pairwise_weights sound along)⟩
    obtain ⟨k, isRow⟩ := sound.isRow_of_mem_images mem
    exact ⟨k, isRow.key, rfl⟩
  have inserted := setPhase_eq_base sound along T
  rw [List.foldlM_append, List.foldlM_append, emptied]
  change ((_ : Except Error _).bind _).bind _ = _
  simp only [Except.bind, joined]
  generalize deleteJoin weight keys _ = start at inserted ⊢
  by_cases none_ : c.finish.upserts.isEmpty
  · rw [if_pos none_]
    have no_images : c.images = [] := by
      rw [← Collapser.upserts_finish, List.isEmpty_iff.mp none_]
      rfl
    rw [no_images] at inserted
    exact inserted
  · obtain ⟨twin, loaded⟩ := loaded
    have ran : exec weight c.layout destTable (.insertRows c.finish.upserts) start = .ok
      (O.base T) := by
      rw [exec, rendered]
      change (Except.bind (c.images.foldlM (loadRow weight c.layout) _) _) = _
      rw [loaded]
      exact inserted
    rw [if_neg none_, List.foldlM_cons, ran]
    rfl

/-- A sound collapser's window does what its overlay means by weight. -/
theorem applyUnit_of_meaning (sound : c.Sound) (along : Overlay.Along weight c.overlay O)
    {T' : MyTable ω} (keyed : Keyed weight c.layout T)
    (means : O.meaning (step weight c.layout) T = .ok T') :
    applyUnit weight destTable (some ⟨c.layout, c.finish, sound.rowsFit⟩) T = .ok
      (c.events, T') := by
  have fits : ∀ op ∈ c.finish.residue.zip (deletedLater c.finish.residue).1, op.1.Fits c.layout :=
    fun op mem => sound.fits op.1 (List.of_mem_zip mem).1
  have runs : runOps (step weight c.layout)
      ((c.finish.residue.zip (deletedLater c.finish.residue).1).map Prod.fst)
        (O.base T) = .ok T' := by
    rw [List.map_fst_zip (Nat.le_of_eq (length_deletedLater _).symm)]
    have ran := means
    rw [Overlay.meaning, along.tail] at ran
    exact ran
  have tail := fun name => applyTail_of_runOps fits (keyed_base sound along keyed) runs name
  rw [applyUnit, statements, List.foldlM_append, setStatements sound along T]
  change Except.map _ (Except.bind (.ok (O.base T)) _) = _
  simp only [Except.bind, tail]
  rfl

end phases

/-! ## Runs of windows -/

section reads

variable {weight l} {S : SourceTable l} {T : MyTable ω} {j k : Key} {r cur : List Cell}

/-- The table holds a source's rows, each under its key's weight. -/
def Reads (weight : Key → ω) (S : SourceTable l) (T : MyTable ω) : Prop :=
  ∀ x r, T x = some r ↔ ∃ k, weight k = x ∧ S.rows k = some r

/-- No two rows have keys of one weight. -/
def Single (weight : Key → ω) (S : SourceTable l) : Prop :=
  ∀ j k, weight j = weight k → S.rows j ≠ none → S.rows k ≠ none → j = k

omit [DecidableEq ω] in
theorem Reads.keyed (reads : Reads weight S T) : Keyed weight l T := by
  intro x r held
  obtain ⟨k, is, there⟩ := (reads x r).mp held
  exact ⟨k, is, S.keyed k r there⟩

omit [DecidableEq ω] in
theorem Reads.at (reads : Reads weight S T) (held : S.rows k = some r) : T (weight k) = some r :=
  (reads _ _).mpr ⟨k, rfl, held⟩

omit [DecidableEq ω] in
/-- Nothing is found by a weight that no other row has. -/
theorem Reads.free (reads : Reads weight S T)
    (alone : ∀ j, weight j = weight k → S.rows j = none) : T (weight k) = none := by
  cases held : T (weight k) with
  | none => rfl
  | some r =>
      obtain ⟨j, is, there⟩ := (reads _ _).mp held
      rw [alone j is] at there
      cases there

theorem Reads.put (reads : Reads weight S T) (isRow : l.IsRow k r)
    (alone : ∀ j, j ≠ k → weight j = weight k → S.rows j = none) :
    Reads weight (S.put k r isRow) (Function.update T (weight k) (some r)) := by
  intro x w
  rw [SourceTable.put_rows]
  by_cases at_ : x = weight k
  · subst at_
    rw [Function.update_self]
    constructor
    · intro is
      exact ⟨k, rfl, by rw [Function.update_self, is]⟩
    · rintro ⟨j, same, held⟩
      by_cases own : j = k
      · rwa [own, Function.update_self] at held
      · rw [Function.update_of_ne own, alone j own same] at held
        cases held
  · rw [Function.update_of_ne at_, reads]
    refine exists_congr fun j => and_congr_right fun is => ?_
    rw [Function.update_of_ne]
    rintro rfl
    exact at_ is.symm

theorem Reads.erase (reads : Reads weight S T) (single : Single weight S)
    (held : S.rows k = some cur) :
    Reads weight (S.erase k) (Function.update T (weight k) none) := by
  intro x w
  rw [SourceTable.erase_rows]
  by_cases at_ : x = weight k
  · subst at_
    rw [Function.update_self]
    constructor
    · intro is
      cases is
    · rintro ⟨j, same, there⟩
      by_cases own : j = k
      · rw [own, Function.update_self] at there
        cases there
      · rw [Function.update_of_ne own] at there
        exact absurd (single j k same (by rw [there]; intro is; cases is)
          (by rw [held]; intro is; cases is)) own
  · rw [Function.update_of_ne at_, reads]
    refine exists_congr fun j => and_congr_right fun is => ?_
    rw [Function.update_of_ne]
    rintro rfl
    exact at_ is.symm

end reads

/-- The keys in the tail of a window: those of the masked events since its last TRUNCATE. -/
def sticks (tail : Set Key) (op : StreamOp) : Set Key :=
  if op = .truncate then ∅ else if op.defers l then op.keys l ∪ tail else tail

/-- No insert, delete or whole update of a window is filed under a key with the weight of
another key that the tail has, unless the tail has it too. -/
def TailApart : Set Key → List StreamOp → Prop
  | _, [] => True
  | tail, op :: ops =>
      (op.defers l = false → ∀ k ∈ op.keys l, k ∉ tail → ∀ j ∈ tail, weight j ≠ weight k) ∧
        TailApart (sticks l tail op) ops

/-- No state of a run has two rows with keys of one weight. -/
def SingleRun (S : SourceTable l) (ops : List StreamOp) : Prop :=
  ∀ pre post S', ops = pre ++ post → S.run? pre = some S' → Single weight S'

section single

variable {weight l} {S S' : SourceTable l} {j k : Key} {r : List Cell} {op : StreamOp}
  {ops : List StreamOp}

omit [DecidableEq ω] in
theorem Single.empty : Single weight (SourceTable.empty l) := fun _ _ _ there => absurd rfl there

omit [DecidableEq ω] in
theorem Single.erase (single : Single weight S) (k : Key) : Single weight (S.erase k) := by
  have sub : ∀ i, (S.erase k).rows i ≠ none → S.rows i ≠ none := by
    intro i there
    rwa [SourceTable.erase_rows, Function.update_of_ne] at there
    rintro rfl
    exact there (Function.update_self ..)
  exact fun i j same here there => single i j same (sub i here) (sub j there)

omit [DecidableEq ω] in
theorem Single.put (single : Single weight S) (isRow : l.IsRow k r)
    (alone : ∀ j, j ≠ k → weight j = weight k → S.rows j = none) :
    Single weight (S.put k r isRow) := by
  have other : ∀ i, i ≠ k → weight i = weight k → (S.put k r isRow).rows i = none := by
    intro i ne same
    rw [SourceTable.put_rows, Function.update_of_ne ne, alone i ne same]
  intro i j same here there
  by_cases at_i : i = k
  · by_cases at_j : j = k
    · rw [at_i, at_j]
    · exact absurd (other j at_j (at_i ▸ same.symm)) there
  · by_cases at_j : j = k
    · exact absurd (other i at_i (at_j ▸ same)) here
    · rw [SourceTable.put_rows, Function.update_of_ne at_i] at here
      rw [SourceTable.put_rows, Function.update_of_ne at_j] at there
      exact single i j same here there

omit [DecidableEq ω] in
theorem SingleRun.nil (single : Single weight S) : SingleRun weight l S [] := by
  intro pre post S' split ran
  obtain rfl : pre = [] := (List.append_eq_nil_iff.mp split.symm).1
  exact Option.some.inj ran ▸ single

omit [DecidableEq ω] in
theorem SingleRun.cons (single : Single weight S) (legal : S.step? op = some S')
    (rest : SingleRun weight l S' ops) : SingleRun weight l S (op :: ops) := by
  intro pre post S₁ split ran
  cases pre with
  | nil => exact Option.some.inj ran ▸ single
  | cons first pre =>
      obtain ⟨rfl, later⟩ := List.cons.inj split
      rw [SourceTable.run?, legal] at ran
      exact rest pre post S₁ later ran

end single

/-- A collapser holds the source's table over the destination's, as the weights see it. -/
structure TracksAt {l : Layout} (weight : Key → ω) (T : MyTable ω) (c : Collapser)
    (S : SourceTable l)
    (tail : Set Key) : Prop where
  bytes : ∃ T₀ seen, Tracks T₀ c S seen
  sticky : c.overlay.sticky = tail
  classes : ∃ O TS, Overlay.Along weight c.overlay O ∧ O.meaning (step weight l) T = .ok TS ∧
    Reads weight S TS

section files

variable {weight l} {S S' : SourceTable l} {T TS : MyTable ω} {T₀ : Table} {j k : Key}
  {r cur : List Cell}
variable {o o' : Overlay Key (List Cell) ResidueOp} {O : Overlay ω (List Cell) ResidueOp}
variable {op : StreamOp}

omit [DecidableEq ω] in
/-- The key of a row a single state puts has its weight alone. -/
theorem alone_of_put {isRow : l.IsRow k r} (single : Single weight (S.put k r isRow)) (j : Key)
    (ne : j ≠ k) (same : weight j = weight k) : S.rows j = none := by
  by_contra there
  refine ne (single j k same ?_ ?_)
  · rw [SourceTable.put_rows, Function.update_of_ne ne]
    exact there
  · rw [SourceTable.put_rows, Function.update_self]
    nofun

omit [DecidableEq ω] in
theorem alone_of_held (single : Single weight S) (held : S.rows k = some cur) (j : Key) (ne : j ≠ k)
    (same : weight j = weight k) : S.rows j = none := by
  by_contra there
  exact ne (single j k same there (by rw [held]; nofun))

omit [DecidableEq ω] in
/-- Where the row's weight is its own, so is what the overlay has pending for it. -/
theorem alone_overlay (kept : o.Kept (ResidueOp.step l))
    (means : o.meaning (ResidueOp.step l) T₀ = .ok S.rows)
    (apart : k ∉ o.sticky → ∀ j ∈ o.sticky, weight j ≠ weight k)
    (alone : ∀ j, j ≠ k → weight j = weight k → S.rows j = none) : Overlay.Alone weight o k where
  apart := apart
  single free j ne same := by
    cases pending : o.pending j with
    | none => rfl
    | some v =>
        have loose : j ∉ o.sticky := fun held => apart free j held same
        have there := Overlay.meaning_of_pending kept means loose pending
        rw [alone j ne same] at there
        cases there

omit [DecidableEq ω] in
/-- A row found by a weight that is its key's alone has that key. -/
theorem Reads.own (reads : Reads weight S TS)
    (alone : ∀ j, j ≠ k → weight j = weight k → S.rows j = none) (cur : List Cell)
    (held : TS (weight k) = some cur) : l.keyTexts cur = some k := by
  obtain ⟨j, same, there⟩ := (reads _ _).mp held
  by_cases own : j = k
  · exact own ▸ (S.keyed j cur there).key
  · rw [alone j own same] at there
    cases there

theorem kept_along (named : o.Named (ResidueOp.keys l)) (along : Overlay.Along weight o O) :
    O.Kept (step weight l) := by
  intro op mem
  refine (confined_step op).mono ?_
  rintro x ⟨k, own, rfl⟩
  rw [along.sticky]
  exact ⟨k, (named k).mpr ⟨op, along.tail ▸ mem, own⟩, rfl⟩

omit [DecidableEq ω] in
theorem Reads.empty : Reads weight (SourceTable.empty l) fun _ => none :=
  fun _ _ => ⟨nofun, fun ⟨_, _, none_⟩ => nomatch none_⟩

/-- A write filed on both sides. -/
private theorem write_classes (named : o.Named (ResidueOp.keys l))
    (means : o.meaning (ResidueOp.step l) T₀ = .ok S.rows) (along : Overlay.Along weight o O)
    (does : O.meaning (step weight l) T = .ok TS) (reads : Reads weight S TS) {isRow : l.IsRow k r}
    (single : Single weight (S.put k r isRow))
    (apart : k ∉ o.sticky → ∀ j ∈ o.sticky, weight j ≠ weight k) :
    ∃ O' TS', Overlay.Along weight (o.write k r (.upsert r)) O' ∧
      O'.meaning (step weight l) T = .ok TS' ∧ Reads weight (S.put k r isRow) TS' := by
  have alone := alone_of_put single
  have kept := named.kept (ResidueOp.confined_step l)
  exact ⟨_, _, along.write (alone_overlay kept means apart alone) r (.upsert r),
    Overlay.meaning_write (kept_along named along) does (step_upsert isRow.key (reads.own alone)),
    reads.put isRow alone⟩

/-- What the overlay of a window becomes is seen through the weights too. -/
theorem classes_of_files (files : Files S o op S' o') (named : o.Named (ResidueOp.keys l))
    (means : o.meaning (ResidueOp.step l) T₀ = .ok S.rows) (along : Overlay.Along weight o O)
    (does : O.meaning (step weight l) T = .ok TS) (reads : Reads weight S TS)
    (single : Single weight S) (single' : Single weight S')
    (apart : op.defers l = false → ∀ k ∈ op.keys l, k ∉ o.sticky → ∀ j ∈ o.sticky,
      weight j ≠ weight k) :
    ∃ O' TS', Overlay.Along weight o' O' ∧ O'.meaning (step weight l) T = .ok TS' ∧
      Reads weight S' TS' := by
  have kept := named.kept (ResidueOp.confined_step l)
  cases files with
  | put isRow free =>
      exact write_classes named means along does reads single' (apart rfl _ isRow.key)
  | rewrite held isRow from_ onto whole =>
      exact write_classes named means along does reads single'
        (apart whole _ (StreamOp.mem_keys.mpr (.inl from_)))
  | @replace _ _ _ j k r cur ne held free isRow from_ onto whole =>
      have alone := alone_overlay kept means (apart whole j (StreamOp.mem_keys.mpr (.inl from_)))
        (alone_of_held single held)
      refine write_classes (named.erase rfl) (Overlay.meaning_erase kept means rfl)
        (along.erase alone _) (Overlay.meaning_erase (kept_along named along) does rfl)
        (reads.erase single held) single' ?_
      rw [Overlay.sticky_erase]
      exact apart whole k (StreamOp.mem_keys.mpr (.inr onto))
  | mask held fits isRow from_ onto defers sets =>
      refine ⟨_, _, along.defer _ _, ?_, reads.put isRow (alone_of_put single')⟩
      rw [Overlay.meaning_defer, does]
      exact step_maskedUpdate (reads.at held) (S.keyed _ _ held).key
  | @move _ _ _ j k r cur ne held free fits isRow from_ onto defers =>
      have alone := alone_of_put single'
      refine ⟨_, _, along.defer _ _, ?_, (reads.erase single held).put isRow alone⟩
      rw [Overlay.meaning_defer, does]
      refine step_rekey (reads.at held) (S.keyed j cur held).key ?_
      by_cases same : weight k = weight j
      · exact .inl same
      · refine .inr (reads.free fun i is => ?_)
        by_cases own : i = k
        · rw [own, free]
        · have gone := alone i own is
          rwa [SourceTable.erase_rows, Function.update_of_ne] at gone
          rintro rfl
          exact same is.symm
  | erase held from_ =>
      have alone := alone_overlay kept means (apart rfl _ (StreamOp.mem_keys.mpr (.inl from_)))
        (alone_of_held single held)
      exact ⟨_, _, along.erase alone _, Overlay.meaning_erase (kept_along named along) does rfl,
        reads.erase single held⟩
  | clear => exact ⟨O.clear, _, .clear, Overlay.meaning_clear, Reads.empty⟩

/-- The tail's keys after an event. -/
theorem sticky_of_files (files : Files S o op S' o') : o'.sticky = sticks l o.sticky op := by
  have both : ∀ {op : StreamOp} {j k : Key}, op.oldKey? l = some j → op.newKey? l = some k →
      op.keys l = {j, k} := by
    intro op j k from_ onto
    ext i
    rw [StreamOp.mem_keys, from_, onto]
    simp [eq_comm]
  cases files with
  | put => rw [Overlay.sticky_write]; rfl
  | rewrite held isRow from_ onto whole =>
      rw [Overlay.sticky_write, sticks, if_neg nofun, whole]
      rfl
  | replace ne held free isRow from_ onto whole =>
      rw [Overlay.sticky_write, Overlay.sticky_erase, sticks, if_neg nofun, whole]
      rfl
  | mask held fits isRow from_ onto defers sets =>
      rw [sticks, if_neg nofun, if_pos defers, both from_ onto, Set.pair_eq_singleton]
      rfl
  | move ne held free fits isRow from_ onto defers =>
      rw [sticks, if_neg nofun, if_pos defers, both from_ onto]
      rfl
  | erase => rw [Overlay.sticky_erase]; rfl
  | clear => rfl

end files

section run

variable {weight l} {S S' : SourceTable l} {T : MyTable ω} {c : Collapser} {tail : Set Key}

namespace TracksAt

theorem new (reads : Reads weight S T) : TracksAt weight T (Collapser.new l) S ∅ where
  bytes := ⟨S.rows, ∅, Tracks.new S⟩
  sticky := by rw [Collapser.overlay_new]; rfl
  classes := by
    rw [Collapser.overlay_new]
    exact ⟨.empty, T, .empty, Overlay.meaning_empty, reads⟩

/-- Landing a legal event. -/
theorem land (tracks : TracksAt weight T c S tail) (pos : Nat) {op : StreamOp}
    (legal : S.step? op = some S') (single : Single weight S) (single' : Single weight S')
    (apart : op.defers l = false → ∀ k ∈ op.keys l, k ∉ tail → ∀ j ∈ tail, weight j ≠ weight k) :
    ∃ c', c.land pos op = .ok c' ∧ TracksAt weight T c' S' (sticks l tail op) := by
  obtain ⟨⟨T₀, seen, bytes⟩, rfl, O, TS, along, does, reads⟩ := tracks
  obtain ⟨c', landed, bytes'⟩ := bytes.land pos legal
  obtain ⟨c'', landed', files⟩ := bytes.land_files pos legal
  obtain rfl : c'' = c' := Except.ok.inj (landed'.symm.trans landed)
  exact ⟨c'', landed, ⟨_, _, bytes'⟩, sticky_of_files files,
    classes_of_files files bytes.named bytes.means along does reads single single' apart⟩

theorem landAll (tracks : TracksAt weight T c S tail) {ops : List (Nat × StreamOp)}
    (legal : S.run? (ops.map Prod.snd) = some S') (single : SingleRun weight l S (ops.map Prod.snd))
    (apart : TailApart weight l tail (ops.map Prod.snd)) :
    ∃ c' tail', c.landAll ops = .ok c' ∧ TracksAt weight T c' S' tail' := by
  induction ops generalizing c S tail with
  | nil =>
      cases legal
      exact ⟨c, tail, rfl, tracks⟩
  | cons op ops ih =>
      obtain ⟨S₁, first, rest⟩ := Option.bind_eq_some_iff.mp legal
      have here : Single weight S := single [] _ S rfl rfl
      have then_ : Single weight S₁ := single [op.2] (ops.map Prod.snd) S₁ rfl (by
        rw [SourceTable.run?, first]
        rfl)
      obtain ⟨c₁, landed, tracks₁⟩ := tracks.land op.1 first here then_ apart.1
      have single₁ : SingleRun weight l S₁ (ops.map Prod.snd) := by
        intro pre post S₂ split ran
        refine single (op.2 :: pre) post S₂ (by rw [List.map_cons, split]; rfl) ?_
        rw [SourceTable.run?, first]
        exact ran
      obtain ⟨c', tail', landed', tracks'⟩ := ih tracks₁ rest single₁ apart.2
      refine ⟨c', tail', ?_, tracks'⟩
      simp only [Collapser.landAll, landed, Except.bind, landed']

/-- Applying the window that was tracked. -/
theorem apply (tracks : TracksAt weight T c S tail) (reads : Keyed weight l T)
    (destTable : String) :
    ∃ w, c.seal destTable = .ok w ∧ ∃ n T', applyUnit weight destTable (some w) T = .ok (n, T') ∧
      Reads weight S T' := by
  obtain ⟨⟨T₀, seen, bytes⟩, -, O, TS, along, does, reads'⟩ := tracks
  obtain rfl := bytes.layout
  exact ⟨_, bytes.sound.seal destTable, _, _, applyUnit_of_meaning bytes.sound along
    reads does, reads'⟩

end TracksAt

/-- Windows collapsed and applied one after another. -/
def landWindows (weight : Key → ω) (destTable : String) (l : Layout) :
    List (List (Nat × StreamOp)) → MyTable ω → Except Error (MyTable ω)
  | [], T => .ok T
  | events :: windows, T => do
      let c ← (Collapser.new l).landAll events
      let w ← c.seal destTable
      let (_, T) ← applyUnit weight destTable (some w) T
      landWindows weight destTable l windows T

/-- Whatever the destination takes for one key, the windows land the source's rows, as
long as no window files a write under a key with the weight of another in its tail. -/
theorem landWindows_reads (destTable : String) (reads : Reads weight S T)
    {windows : List (List (Nat × StreamOp))}
    (legal : S.run? (windows.flatten.map Prod.snd) = some S')
    (single : SingleRun weight l S (windows.flatten.map Prod.snd))
    (apart : ∀ events ∈ windows, TailApart weight l ∅ (events.map Prod.snd)) :
    ∃ T', landWindows weight destTable l windows T = .ok T' ∧ Reads weight S' T' := by
  induction windows generalizing S T with
  | nil =>
      cases legal
      exact ⟨T, rfl, reads⟩
  | cons events windows ih =>
      rw [List.flatten_cons, List.map_append, SourceTable.run?_append] at legal
      rw [List.flatten_cons, List.map_append] at single
      obtain ⟨S₁, first, rest⟩ := Option.bind_eq_some_iff.mp legal
      have single₀ : SingleRun weight l S (events.map Prod.snd) := fun pre post S₂ split ran =>
        single pre (post ++ windows.flatten.map Prod.snd) S₂ (by rw [split, List.append_assoc]) ran
      have single₁ : SingleRun weight l S₁ (windows.flatten.map Prod.snd) := by
        intro pre post S₂ split ran
        refine single (events.map Prod.snd ++ pre) post S₂ (by rw [split, List.append_assoc]) ?_
        rw [SourceTable.run?_append, first]
        exact ran
      obtain ⟨c, tail, landed, tracks⟩ :=
        (TracksAt.new reads).landAll first single₀ (apart events List.mem_cons_self)
      obtain ⟨w, sealed, n, T₁, applied, reads₁⟩ := tracks.apply reads.keyed destTable
      obtain ⟨T', landed', reads'⟩ :=
        ih reads₁ rest single₁ fun events' mem => apart events' (List.mem_cons_of_mem _ mem)
      refine ⟨T', ?_, reads'⟩
      simp only [landWindows, landed, sealed, applied, bind, Except.bind]
      exact landed'

end run

/-! ### One letter in two cases -/

namespace Cased

/-- ASCII letters in one case. -/
def folded : Key → Key := List.map (List.map fun b => if 65 ≤ b ∧ b ≤ 90 then b + 32 else b)

def upper : Key := [[65]]

def lower : Key := [[97]]

def row (id : UInt8) : List Cell := [.text [id], .text [1]]

theorem isRow_upper : Sample.layout.IsRow upper (row 65) := ⟨rfl, by simp [row], rfl⟩

theorem isRow_lower : Sample.layout.IsRow lower (row 97) := ⟨rfl, by simp [row], rfl⟩

def before : SourceTable Sample.layout := (SourceTable.empty _).put upper _ isRow_upper

def after : SourceTable Sample.layout := (before.erase upper).put lower _ isRow_lower

/-- The destination's copy of `before`. -/
def held : MyTable Key := Function.update (fun _ => none) (folded upper) (some (row 65))

def delete : StreamOp := .delete (.fromCells (row 65))

def insert : StreamOp := .insert (.fromCells (row 97))

/-- An update of the upper-case row without its body. -/
def masked : StreamOp := .update none (.fromCells [.text [65], .unchangedToast]) false

theorem single_before : Single folded before :=
  Single.empty.put isRow_upper fun _ _ _ => rfl

theorem reads_before : Reads folded before held :=
  Reads.empty.put isRow_upper fun _ _ _ => rfl

theorem gone_before (j : Key) : (before.erase upper).rows j = none := by
  by_cases at_ : j = upper
  · rw [at_, SourceTable.erase_rows, Function.update_self]
  · rw [SourceTable.erase_rows, Function.update_of_ne at_]
    exact Function.update_of_ne at_ ..

theorem single_moved : SingleRun folded Sample.layout before [delete, insert] := by
  have one : before.step? delete = some (before.erase upper) := rfl
  have two : (before.erase upper).step? insert = some after := rfl
  have last : Single folded after := (single_before.erase upper).put isRow_lower
    fun j _ _ => gone_before j
  exact .cons single_before one (.cons (single_before.erase upper) two (.nil last))

/-- A row deleted, and one in the other case inserted, in one window. -/
theorem landWindows_reads_cased :
    ∃ T', landWindows folded "t" Sample.layout [[(1, delete), (2, insert)]] held = .ok T' ∧
      Reads folded after T' := by
  have legal : before.run? (([[(1, delete), (2, insert)]] : List
    (List (Nat × StreamOp))).flatten.map
      Prod.snd) = some after := rfl
  refine landWindows_reads "t" reads_before legal single_moved fun events mem => ?_
  obtain rfl := List.mem_singleton.mp mem
  exact ⟨fun _ _ _ _ _ there => (nomatch there), fun _ _ _ _ _ there => (nomatch there), trivial⟩

/-- `before`, with the masked update's row written again. -/
def touched : SourceTable Sample.layout := (before.erase upper).put upper _ isRow_upper

/-- With a masked update before them, the delete runs behind the insert and takes its row. -/
theorem masked_delete_takes_the_insert :
    ∃ S', before.run? [masked, delete, insert] = some S' ∧
      SingleRun folded Sample.layout before [masked, delete, insert] ∧ Reads folded before held ∧
      ¬ ∃ T', landWindows folded "t" Sample.layout [[(1, masked), (2, delete), (3, insert)]] held =
        .ok T' ∧
        Reads folded S' T' := by
  have one : before.step? masked = some touched := rfl
  have two : touched.step? delete = some (touched.erase upper) := rfl
  have three : (touched.erase upper).step? insert =
      some ((touched.erase upper).put lower _ isRow_lower) := rfl
  have gone (j : Key) : (touched.erase upper).rows j = none := by
    by_cases at_ : j = upper
    · rw [at_, SourceTable.erase_rows, Function.update_self]
    · rw [SourceTable.erase_rows, Function.update_of_ne at_]
      exact (Function.update_of_ne at_ ..).trans (gone_before j)
  have single_touched : Single folded touched :=
    (single_before.erase upper).put isRow_upper fun j _ _ => gone_before j
  have single_after : Single folded ((touched.erase upper).put lower _ isRow_lower) :=
    (single_touched.erase upper).put isRow_lower fun j _ _ => gone j
  refine ⟨(touched.erase upper).put lower _ isRow_lower, ?_, .cons single_before one
    (.cons single_touched two (.cons (single_touched.erase upper) three (.nil single_after))),
    reads_before, ?_⟩
  · rw [SourceTable.run?, one, Option.bind_some, SourceTable.run?, two, Option.bind_some,
      SourceTable.run?, three]
    rfl
  · rintro ⟨T', landed, reads⟩
    have taken : (landWindows folded "t" Sample.layout
      [[(1, masked), (2, delete), (3, insert)]] held).map
        (fun T => T (folded lower)) = .ok none := by
      decide +kernel
    rw [landed] at taken
    have none_ : T' (folded lower) = none := Except.ok.inj taken
    have there : T' (folded lower) = some (row 97) :=
      (reads _ _).mpr ⟨lower, rfl, by rw [SourceTable.put_rows, Function.update_self]⟩
    rw [none_] at there
    cases there

end Cased

end DestMy

end Apitap
