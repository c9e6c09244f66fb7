import Apitap.Foundation.Debts
import Apitap.Logbased.Collation

/-!
# A tail on a table with rows missing

An op of the tail that has to find its row, and does not, changes nothing, and the probe
behind it refuses the window unless a later op of the tail takes the row from the key
that was probed. Passing over the rows that are not there is a meaning of its own; what
the probes let through of it is a tail whose debts are settled.
-/

namespace Apitap

open Foundation DestPg

namespace ResidueOp

/-- The op looks for a row that is not there. -/
def Unfound : ResidueOp → Table → Prop
  | maskedUpdate key _, T => T key = none
  | rekey oldKey newKey _, T => T oldKey = none ∧ T newKey = none
  | _, _ => False

instance (op : ResidueOp) (T : Table) : Decidable (op.Unfound T) := by
  cases op <;> unfold Unfound <;> infer_instance

/-- What an op does to a table that may lack its row. -/
def lenient (l : Layout) (op : ResidueOp) (T : Table) : Except Unit Table :=
  if op.Unfound T then .ok T else op.step l T

/-- The key that the probe behind an op looks at. -/
def probed? (l : Layout) : ResidueOp → Option Key
  | maskedUpdate key row => if (setList (isPk l) l.cols row).isEmpty then none else some key
  | rekey _ newKey row => if (setList
      (fun _ => false) l.cols row).isEmpty then none else some newKey
  | _ => none

/-- The key an op takes the row from. -/
def taken : ResidueOp → Set Key
  | rekey oldKey _ _ => {oldKey}
  | delete key => {key}
  | _ => ∅

/-- The key an op is probed at and has no row for. -/
def missed (l : Layout) (T : Table) (op : ResidueOp) : Set Key :=
  {k | op.Unfound T ∧ op.probed? l = some k}

/-- The keys an op misses, if the ops before it left a table. -/
def missedOn (l : Layout) (s : Option Table) (op : ResidueOp) : Set Key :=
  {k | ∃ T, s = some T ∧ k ∈ missed l T op}

/-- A tail's table, as long as each of its ops does something. -/
def onward (sem : ResidueOp → Table → Except Unit Table) (s : Option Table) (op : ResidueOp) :
    Option Table :=
  s.bind fun T => (sem op T).toOption

section lenient

variable {l : Layout} {op : ResidueOp} {T T' : Table} {k : Key}

theorem lenient_of_unfound (unfound : op.Unfound T) : op.lenient l T = .ok T := if_pos unfound

theorem lenient_of_found (found : ¬op.Unfound T) : op.lenient l T = op.step l T := if_neg found

/-- Whether an op finds its row depends on the keys it names. -/
theorem unfound_congr {U : Table} (same : Set.EqOn T U (op.keys l)) :
    op.Unfound T ↔ op.Unfound U := by
  cases op with
  | maskedUpdate key row =>
      have at_key : T key = U key := same (Set.mem_singleton key)
      rw [Unfound, Unfound, at_key]
  | upsert row => rfl
  | delete key => rfl
  | rekey oldKey newKey row =>
      have at_old : T oldKey = U oldKey := same (Set.mem_insert ..)
      have at_new : T newKey = U newKey := same (Set.mem_insert_of_mem _ rfl)
      rw [Unfound, Unfound, at_old, at_new]

theorem confined_lenient (l : Layout) (op : ResidueOp) : Confined (op.keys l) (op.lenient l) := by
  intro T U same
  by_cases unfound : op.Unfound T
  · rw [lenient_of_unfound unfound, lenient_of_unfound ((unfound_congr same).mp unfound),
      Except.map,
      piecewise_self same]
  · rw [lenient_of_found unfound, lenient_of_found ((unfound_congr same).not.mp unfound)]
    exact confined_step l op T U same

theorem keyed_lenient (fits : op.Fits l) (keyed : T.Keyed l) (means : op.lenient l T = .ok T') :
    T'.Keyed l := by
  by_cases unfound : op.Unfound T
  · rw [lenient_of_unfound unfound] at means
    exact Except.ok.inj means ▸ keyed
  · rw [lenient_of_found unfound] at means
    exact keyed_step fits keyed means

theorem missed_subset (l : Layout) (T : Table) (op : ResidueOp) : missed l T op ⊆ op.keys l := by
  rintro k ⟨unfound, probed⟩
  cases op with
  | maskedUpdate key row =>
      rw [probed?] at probed
      split at probed
      · cases probed
      · exact (Option.some.inj probed).symm
  | upsert row => cases unfound
  | delete key => cases unfound
  | rekey oldKey newKey row =>
      rw [probed?] at probed
      split at probed
      · cases probed
      · exact .inr (Option.some.inj probed).symm

theorem missedOn_some : missedOn l (some T) op = missed l T op := by
  ext k
  exact ⟨fun ⟨_, is, missing⟩ => Option.some.inj is ▸ missing, fun missing => ⟨T, rfl, missing⟩⟩

theorem onward_eq {sem : ResidueOp → Table → Except Unit Table} (means : sem op T = .ok T') :
    onward sem (some T) op = some T' := by
  rw [onward, Option.bind_some, means]
  rfl

theorem foldl_onward (sem : ResidueOp → Table → Except Unit Table)
    (ops : List ResidueOp) (T : Table) :
    ops.foldl (onward sem) (some T) = (runOps sem ops T).toOption := by
  induction ops generalizing T with
  | nil => rfl
  | cons op ops ih =>
      rw [List.foldl_cons, runOps_cons, onward, Option.bind_some]
      cases sem op T with
      | ok T₁ => exact ih T₁
      | error e =>
          have halted : ops.foldl (onward sem) none = none := by
            clear ih
            induction ops with
            | nil => rfl
            | cons op ops ih => exact ih
          exact halted

end lenient

/-- The backward scan collects the keys that later ops take rows from. -/
theorem mem_deletedLater {ops : List ResidueOp} {k : Key} :
    k ∈ (deletedLater ops).2 ↔ ∃ op ∈ ops, k ∈ op.taken := by
  induction ops with
  | nil => simp [deletedLater]
  | cons op ops ih => cases op <;> simp [deletedLater, taken, ih]

/-- An op with a probe is moot when a later op takes the row from the probed key. -/
theorem deletedLater_cons {l : Layout} (op : ResidueOp) (ops : List ResidueOp) :
    ∃ moot, (deletedLater (op :: ops)).1 = moot :: (deletedLater ops).1 ∧
      ∀ k, op.probed? l = some k → (moot = true ↔ ∃ later ∈ ops, k ∈ later.taken) := by
  cases op with
  | maskedUpdate key row =>
      refine ⟨(deletedLater ops).2.contains key, rfl, fun k probed => ?_⟩
      have is := missed_subset l (fun _ => none) (maskedUpdate key row) ⟨rfl, probed⟩
      rw [List.contains_iff_mem, Set.mem_singleton_iff.mp is, mem_deletedLater]
  | upsert row => exact ⟨false, rfl, nofun⟩
  | delete key => exact ⟨false, rfl, nofun⟩
  | rekey oldKey newKey row =>
      refine ⟨(deletedLater ops).2.contains newKey, rfl, fun k probed => ?_⟩
      rw [probed?] at probed
      split at probed
      · cases probed
      · rw [List.contains_iff_mem, Option.some.inj probed, mem_deletedLater]

end ResidueOp

open ResidueOp

namespace DestMy

section tail

variable {l : Layout} {op : ResidueOp} {T T' : Table} {k : Key} {destTable : String} {moot : Bool}

theorem keyed_id (keyed : T.Keyed l) : Keyed id l T := fun x r held => ⟨x, rfl, keyed x r held⟩

/-- By bytes, what an op means to the destination is what it means. -/
theorem step_id (keyed : T.Keyed l) (means : op.step l T = .ok T') : step id l op T = .ok T' := by
  cases op with
  | maskedUpdate key row =>
      rw [ResidueOp.step] at means
      split at means
      · rename_i cur held
        exact (step_maskedUpdate held (keyed key cur held).key).trans means
      · cases means
  | upsert row =>
      rw [ResidueOp.step] at means
      split at means
      · rename_i k key
        exact (step_upsert key fun cur held => (keyed k cur held).key).trans means
      · cases means
  | delete key => exact means
  | rekey oldKey newKey row =>
      rw [ResidueOp.step] at means
      split at means
      · rename_i cur held free
        exact (step_rekey held (keyed oldKey cur held).key (.inr free)).trans means
      · cases means

/-- An op whose row is not there changes nothing, and is refused by its probe unless it
is moot. -/
theorem applyOp_unfound (l : Layout) (destTable : String) (moot : Bool) (unfound : op.Unfound T) :
    (op.probed? l = none ∧ applyOp id l destTable moot op T = .ok T) ∨
      ∃ kind k, op.probed? l = some k ∧ applyOp id l destTable moot op T =
        if moot = true then .ok T else .error (missingRow destTable kind k) := by
  cases op with
  | maskedUpdate key row =>
      have gone : T key = none := unfound
      rw [probed?, applyOp]
      split
      · exact .inl ⟨rfl, rfl⟩
      · refine .inr ⟨"masked", key, rfl, ?_⟩
        simp only [updateWhere, id_eq, gone, Except.bind, probe, and_true]
        cases moot <;> rfl
  | upsert row => cases unfound
  | delete key => cases unfound
  | rekey oldKey newKey row =>
      obtain ⟨gone, free⟩ := unfound
      rw [probed?, applyOp]
      split
      · exact .inl ⟨rfl, rfl⟩
      · refine .inr ⟨"move", newKey, rfl, ?_⟩
        simp only [updateWhere, id_eq, gone, Except.bind, probe, free, and_true]
        cases moot <;> rfl

/-- The statements of a tail, run. -/
def runTail (l : Layout) (destTable : String) (ops : List ResidueOp) (T : Table) :
    Except Error Table :=
  ((ops.zip (deletedLater ops).1).map fun op => Stmt.residue op.1 op.2).foldlM
    (fun T s => exec id l destTable s T) T

theorem runTail_cons (l : Layout) (destTable : String) (op : ResidueOp)
    (ops : List ResidueOp) (T : Table) :
    ∃ moot, runTail l destTable (op :: ops) T =
        (applyOp id l destTable moot op T).bind (runTail l destTable ops) ∧
      ∀ k, op.probed? l = some k → (moot = true ↔ ∃ later ∈ ops, k ∈ later.taken) := by
  obtain ⟨moot, flags, moot_iff⟩ := deletedLater_cons (l := l) op ops
  refine ⟨moot, ?_, moot_iff⟩
  rw [runTail, flags, List.zip_cons_cons, List.map_cons, List.foldlM_cons]
  rfl

/-- A tail leaves what passing over its missing rows leaves when it is settled, and is
refused for a missing row when it is not. -/
structure Judged (l : Layout) (destTable : String) (ops : List ResidueOp) (T T' : Table) :
    Prop where
  settled : Settled (onward (lenient l)) (missedOn l) taken (some T) ops →
    runTail l destTable ops T = .ok T'
  refused : ¬Settled (onward (lenient l)) (missedOn l) taken (some T) ops →
    ∃ kind key, runTail l destTable ops T = .error (missingRow destTable kind key)

/-- An op that is let through leaves the verdict to the ops behind it. -/
theorem Judged.cons {ops : List ResidueOp} {T₁ : Table} (rest : Judged l destTable ops T₁ T')
    (first : op.lenient l T = .ok T₁)
    (ran : runTail l destTable (op :: ops) T = (applyOp id l destTable moot op T).bind
      (runTail l destTable ops))
    (applied : applyOp id l destTable moot op T = .ok T₁)
    (paid : ∀ k ∈ missed l T op, ∃ later ∈ ops, k ∈ later.taken) :
    Judged l destTable (op :: ops) T T' := by
  rw [applied] at ran
  constructor
  · rintro ⟨-, settled⟩
    rw [onward_eq first] at settled
    exact ran.trans (rest.settled settled)
  · intro unsettled
    obtain ⟨kind, key, refused⟩ := rest.refused fun settled =>
      unsettled ⟨missedOn_some ▸ paid, (onward_eq first).symm ▸ settled⟩
    exact ⟨kind, key, ran.trans refused⟩

theorem judged_of_runOps_lenient {ops : List ResidueOp} (fits : ∀ op ∈ ops, op.Fits l)
    (keyed : T.Keyed l) (means : runOps (lenient l) ops T = .ok T') (destTable : String) :
    Judged l destTable ops T T' := by
  induction ops generalizing T with
  | nil =>
      exact ⟨fun _ => congrArg _ (Except.ok.inj means), fun unsettled => absurd trivial unsettled⟩
  | cons op ops ih =>
      have fits_op := fits op (.head _)
      obtain ⟨moot, ran, moot_iff⟩ := runTail_cons l destTable op ops T
      rw [runOps_cons] at means
      cases first : op.lenient l T with
      | error e => simp [first, Except.bind] at means
      | ok T₁ =>
          rw [first] at means
          have rest := ih (fun op' mem => fits op' (.tail _ mem))
            (keyed_lenient fits_op keyed first) means
          by_cases unfound : op.Unfound T
          · obtain rfl : T = T₁ := Except.ok.inj ((lenient_of_unfound unfound).symm.trans first)
            rcases applyOp_unfound l destTable moot unfound with
              ⟨unprobed, applied⟩ | ⟨kind, k, probed, applied⟩
            · refine rest.cons first ran applied fun k missing => ?_
              rw [missing.2] at unprobed
              cases unprobed
            · by_cases is_moot : moot = true
              · rw [if_pos is_moot] at applied
                refine rest.cons first ran applied fun k' missing => ?_
                obtain rfl : k = k' := Option.some.inj (probed.symm.trans missing.2)
                exact (moot_iff k probed).mp is_moot
              · rw [if_neg is_moot] at applied
                constructor
                · rintro ⟨paid, -⟩
                  exact absurd ((moot_iff k probed).mpr (paid k ⟨T, rfl, unfound, probed⟩)) is_moot
                · intro _
                  exact ⟨kind, k, by rw [ran, applied]; rfl⟩
          · rw [lenient_of_found unfound] at first
            exact rest.cons ((lenient_of_found unfound).trans first) ran
              (applyOp_of_step fits_op (keyed_id keyed) (step_id keyed first) moot)
              fun k missing => absurd missing.1 unfound

end tail

end DestMy

end Apitap
