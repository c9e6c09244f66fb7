import Apitap.Logbased.CollapseMeaning

/-!
# Windows without a tail

A window of whole images defers nothing: its overlay is the keys it drops and the rows
it puts there. What it says of a key is then the same whatever lies underneath, and the
keys it says nothing of are the ones no event of it was about.
-/

namespace Apitap

open Foundation

theorem mem_touchedKeys {l : Layout} {ops : List StreamOp} (kept : .truncate ∉ ops) {k : Key} :
    k ∈ touchedKeys l ops ↔ ∃ op ∈ ops, k ∈ op.keys l := by
  have go (ops : List StreamOp) (kept : .truncate ∉ ops) (seen : Set Key) :
      k ∈ ops.foldl (fun seen op => if op = .truncate then ∅ else op.keys l ∪ seen) seen ↔
        k ∈ seen ∨ ∃ op ∈ ops, k ∈ op.keys l := by
    induction ops generalizing seen with
    | nil => simp
    | cons op ops ih =>
        obtain ⟨ne, kept⟩ := not_or.mp (List.mem_cons.not.mp kept)
        rw [List.foldl_cons, ih kept, if_neg (Ne.symm ne)]
        simp only [Set.mem_union, List.mem_cons, exists_eq_or_imp]
        tauto
  exact (go ops kept ∅).trans (by simp)

/-- Every cell of the row was shipped. -/
def StreamOp.Whole : StreamOp → Prop
  | .insert row => .unchangedToast ∉ row.toCells
  | .update _ row _ => .unchangedToast ∉ row.toCells
  | .delete _ => True
  | .truncate => True

instance : DecidablePred StreamOp.Whole
  | .insert row => inferInstanceAs (Decidable (Cell.unchangedToast ∉ row.toCells))
  | .update _ row _ => inferInstanceAs (Decidable (Cell.unchangedToast ∉ row.toCells))
  | .delete _ => inferInstanceAs (Decidable True)
  | .truncate => inferInstanceAs (Decidable True)

theorem keyFromOld_of_whole {idx : List Nat} {old row : Tuple}
    (whole : .unchangedToast ∉ row.toCells) : keyFromOld idx old row = row := by
  unfold keyFromOld
  rw [if_neg]
  intro masked
  obtain ⟨i, -, hole⟩ := List.any_eq_true.mp masked
  rw [decide_eq_true_eq, Tuple.get_eq] at hole
  exact whole (List.mem_of_getElem? hole)

namespace Collapser

/-- No op was deferred, and no key's op will be. -/
structure Flat (c : Collapser) : Prop where
  tail : c.residue.ops = []
  slots : ∀ key d, c.map.lookup key ≠ some (.residue d)

variable {c : Collapser}

theorem flat_new (l : Layout) : (new l).Flat := ⟨rfl, fun _ _ => nofun⟩

theorem Flat.file (flat : c.Flat) (upserts : List (Option Tuple)) (key : K) {slot : Slot}
    (kind : ∀ d, slot ≠ .residue d) :
    Flat { c with upserts := upserts, map := c.map.insert key slot } := by
  refine ⟨flat.tail, fun key' d => ?_⟩
  by_cases same : key' = key
  · subst same
    rw [AList.lookup_insert]
    exact fun is => kind d (Option.some.inj is)
  · rw [AList.lookup_insert_ne same]
    exact flat.slots key' d

theorem Flat.pushUpsert (flat : c.Flat) (key : K) (row : Tuple) (del : Bool) :
    (c.pushUpsert key row del).Flat := flat.file _ key nofun

theorem Flat.putDelete (flat : c.Flat) (key : K) : (c.putDelete key).Flat := by
  unfold Collapser.putDelete
  split
  · rename_i d held
    exact absurd held (flat.slots key d)
  · exact flat.file _ key nofun
  · exact flat
  · exact flat.file c.upserts key nofun

theorem Flat.putImage (flat : c.Flat) (key : K) {row : Tuple} (whole : row.hasToast = false) :
    (c.putImage key row).Flat := by
  unfold Collapser.putImage
  simp only [whole, Bool.false_eq_true, if_false]
  split
  · rename_i d held
    exact absurd held (flat.slots key d)
  · split
    · exact ⟨flat.tail, flat.slots⟩
    · exact flat.file _ key nofun
  · exact flat.file _ key nofun

theorem Flat.killOld (flat : c.Flat) (full : Bool) (old : Tuple) (key : K) :
    (c.killOld full old key).Flat := by
  unfold Collapser.killOld
  split
  · split
    · exact flat.file c.upserts key nofun
    · exact flat
  · exact flat.putDelete key

/-- A whole image needs no tail. -/
theorem Flat.land {c' : Collapser} (flat : c.Flat) {pos : Nat} {op : StreamOp} (whole : op.Whole)
    (landed : c.land pos op = .ok c') : c'.Flat := by
  have flat : { c.at' pos with events := (c.at' pos).events + 1 }.Flat := ⟨flat.tail, flat.slots⟩
  cases op with
  | insert row =>
      obtain ⟨key, -, rfl⟩ := map_eq_ok.mp landed
      dsimp only
      split
      · rename_i d held
        exact absurd held (flat.slots key d)
      · exact ⟨flat.tail, flat.slots⟩
      · exact flat.pushUpsert key row true
      · exact flat.pushUpsert key row false
  | update old row full =>
      have whole : .unchangedToast ∉ row.toCells := whole
      have toast : row.hasToast = false := by
        rw [← Bool.not_eq_true, Tuple.hasToast_iff]
        exact whole
      unfold Collapser.land Collapser.updateImage at landed
      cases old with
      | none =>
          obtain ⟨newKey, -, done⟩ := bind_eq_ok.mp landed
          obtain rfl := Except.ok.inj done
          exact flat.putImage newKey toast
      | some old =>
          simp only [keyFromOld_of_whole whole] at landed
          obtain ⟨newKey, -, landed⟩ := bind_eq_ok.mp landed
          obtain ⟨oldKey, -, landed⟩ := bind_eq_ok.mp landed
          rw [toast, if_neg Bool.false_ne_true] at landed
          split at landed
          · obtain rfl := Except.ok.inj landed
            exact flat.putImage newKey toast
          · obtain rfl := Except.ok.inj landed
            exact (flat.killOld full old oldKey).putImage newKey toast
  | delete old =>
      obtain ⟨key, -, rfl⟩ := map_eq_ok.mp landed
      exact flat.putDelete key
  | truncate =>
      obtain rfl := Except.ok.inj landed
      exact ⟨rfl, fun _ _ => nofun⟩

theorem Flat.landAll {c' : Collapser} (flat : c.Flat) {events : List (Nat × StreamOp)}
    (whole : ∀ op ∈ events.map Prod.snd, op.Whole) (landed : c.landAll events = .ok c') :
    c'.Flat := by
  induction events generalizing c with
  | nil => exact Except.ok.inj landed ▸ flat
  | cons event events ih =>
      obtain ⟨c₁, first, rest⟩ := bind_eq_ok.mp landed
      exact ih (flat.land (whole event.2 (.head _)) first)
        (fun op mem => whole op (.tail _ mem)) rest

/-! ### Truncates -/

@[simp] theorem truncated_putDelete (key : K) : (c.putDelete key).truncated = c.truncated := by
  unfold Collapser.putDelete
  split <;> rfl

@[simp] theorem truncated_killOld (full : Bool) (old : Tuple) (key : K) :
    (c.killOld full old key).truncated = c.truncated := by
  unfold Collapser.killOld
  split
  · split <;> rfl
  · exact truncated_putDelete key

@[simp] theorem truncated_putImage (key : K) (row : Tuple) :
    (c.putImage key row).truncated = c.truncated := by
  unfold Collapser.putImage
  dsimp only
  split
  · split <;> rfl
  · split
    · rfl
    · split <;> rfl
  · split <;> rfl

theorem truncated_insert {c' : Collapser} {row : Tuple} (landed : c.insert row = .ok c') :
    c'.truncated = c.truncated := by
  obtain ⟨key, -, rfl⟩ := map_eq_ok.mp landed
  dsimp only
  split <;> rfl

theorem truncated_updateImage {c' : Collapser} {old : Option Tuple} {full : Bool} {row : Tuple}
    (landed : c.updateImage old full row = .ok c') : c'.truncated = c.truncated := by
  unfold Collapser.updateImage at landed
  cases old with
  | none =>
      obtain ⟨newKey, -, landed⟩ := bind_eq_ok.mp landed
      obtain rfl := Except.ok.inj landed
      exact truncated_putImage ..
  | some old =>
      dsimp only at landed
      obtain ⟨newKey, -, landed⟩ := bind_eq_ok.mp landed
      obtain ⟨oldKey, -, landed⟩ := bind_eq_ok.mp landed
      split at landed
      · obtain rfl := Except.ok.inj landed
        exact truncated_putImage ..
      · split at landed
        · obtain rfl := Except.ok.inj landed
          rfl
        · obtain rfl := Except.ok.inj landed
          exact (truncated_putImage ..).trans (truncated_killOld ..)

theorem truncated_land {c' : Collapser} {pos : Nat} {op : StreamOp}
    (landed : c.land pos op = .ok c') :
    c'.truncated = true ↔ c.truncated = true ∨ op = .truncate := by
  cases op with
  | insert row =>
      rw [truncated_insert landed]
      simp [Collapser.at']
  | update old row full =>
      rw [truncated_updateImage landed]
      simp [Collapser.at']
  | delete old =>
      obtain ⟨key, -, rfl⟩ := map_eq_ok.mp landed
      simp [Collapser.at']
  | truncate =>
      obtain rfl := Except.ok.inj landed
      simp [Collapser.truncate]

/-- The window says so exactly when one of its events was a truncate. -/
theorem truncated_landAll {c' : Collapser} {events : List (Nat × StreamOp)}
    (landed : c.landAll events = .ok c') :
    c'.truncated = true ↔ c.truncated = true ∨ .truncate ∈ events.map Prod.snd := by
  induction events generalizing c with
  | nil =>
      obtain rfl := Except.ok.inj landed
      simp
  | cons event events ih =>
      obtain ⟨c₁, first, rest⟩ := bind_eq_ok.mp landed
      rw [ih rest, truncated_land first, List.map_cons, List.mem_cons, or_assoc,
        eq_comm (a := event.2)]

end Collapser

/-! ## What a flat window does to any table -/

section Tracks

variable {l : Layout} {c : Collapser} {S S' : SourceTable l} {seen : Set Key} {T : Table} {k : Key}

theorem Tracks.tail (tracks : Tracks T c S' seen) (flat : c.residue.ops = []) :
    c.overlay.base T = S'.rows := by
  have means := tracks.means
  rw [Overlay.meaning, show c.overlay.tail = [] from flat, runOps_nil] at means
  exact Except.ok.inj means

/-- A key the window has a say about reads the same over every table. -/
theorem Tracks.settled (tracks : Tracks S.rows c S' seen) (flat : c.residue.ops = []) (U : Table) :
    c.overlay.base U k = S'.rows k ∨
      c.overlay.base U k = U k ∧ c.truncated = false ∧ k ∉ seen := by
  have same := congrFun (tracks.tail flat) k
  cases pending : c.overlay.pending k with
  | some r =>
      rw [Overlay.base_of_pending pending] at same ⊢
      exact .inl same
  | none =>
      by_cases gone : c.overlay.cleared = true ∨ k ∈ c.overlay.dropped
      · rw [Overlay.base_of_gone pending gone] at same ⊢
        exact .inl same
      · obtain ⟨kept, undropped⟩ := not_or.mp gone
        refine .inr ⟨Overlay.base_of_untouched pending gone, Bool.eq_false_iff.mpr kept, ?_⟩
        rw [← tracks.touched]
        rintro ((queued | dropped) | sticky)
        · exact queued pending
        · exact undropped dropped
        · obtain ⟨op, deferred, -⟩ := (tracks.named k).mp sticky
          rw [show c.overlay.tail = [] from flat] at deferred
          nomatch deferred

end Tracks

/-- Over any keyed table a window without a tail lands, and brings every key its events
were about to where the source has it. -/
theorem Collapser.flat_window_lands {l : Layout} {S S' : SourceTable l}
    {events : List (Nat × StreamOp)} (table destTable : String)
    (legal : S.run? (events.map Prod.snd) = some S') {c : Collapser}
    (landed : (Collapser.new l).landAll events = .ok c) (flat : c.residue.ops = []) {T : Table}
    (keyed : T.Keyed l) :
    ∃ w T', c.seal table = .ok w ∧ DestPg.applyUnit destTable (some w) T = .ok (c.events, T') ∧
      T'.Keyed l ∧ ∀ k, T' k = S'.rows k ∨
        T' k = T k ∧ ∀ op ∈ events.map Prod.snd, op ≠ .truncate ∧ k ∉ op.keys l := by
  obtain ⟨c', landed', tracks⟩ := Collapser.tracks_of_legal legal
  obtain rfl := Except.ok.inj (landed.symm.trans landed')
  obtain rfl := tracks.layout
  have means : c.overlay.meaning (ResidueOp.step c.layout) T = .ok (c.overlay.base T) := by
    rw [Overlay.meaning, show c.overlay.tail = [] from flat, runOps_nil]
  refine ⟨_, _, tracks.sound.seal table, applyUnit_of_meaning tracks.sound keyed means,
    tracks.sound.keyed_base keyed, fun k => (tracks.settled flat T).imp_right ?_⟩
  rintro ⟨kept, whole, unseen⟩
  have none : .truncate ∉ events.map Prod.snd := by
    intro mem
    rw [(Collapser.truncated_landAll landed).mpr (.inr mem)] at whole
    cases whole
  refine ⟨kept, fun op mem => ⟨fun same => none (same ▸ mem), fun own => unseen ?_⟩⟩
  exact (mem_touchedKeys none).mpr ⟨op, mem, own⟩

end Apitap
