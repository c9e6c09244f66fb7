import Apitap.Logbased.PartTable

/-!
# A window applied again

A window may be applied over a destination that already holds a first part of it. A row
that the part moved on is not where the window's tail looks for it, and the tail's
deletes may take it before the tail asks for it again. What each op of the tail finds
follows from the keys that the source had behind the first part, carried through the
window's events as the apply carries them.
-/

namespace Apitap

open Foundation DestPg ResidueOp StreamOp

namespace ResidueOp

/-- What an op does to a table that may be ahead of it: nothing where its row is gone. -/
def again (l : Layout) (op : ResidueOp) (T : Table) : Except Unit Table :=
  match op with
  | maskedUpdate key _ => if T key = none then .ok T else op.step l T
  | rekey oldKey _ _ => if T oldKey = none then .ok T else op.step l T
  | _ => op.step l T

/-- A move is to another key. -/
def Moves : ResidueOp → Prop
  | rekey oldKey newKey _ => newKey ≠ oldKey
  | _ => True

section again

variable {l : Layout} {op : ResidueOp} {T T' : Table} {j k : Key} {r cur : List Cell}

theorem step_unfound (unfound : op.Unfound T) : op.step l T = .error () := by
  cases op with
  | maskedUpdate key row =>
      have gone : T key = none := unfound
      simp only [step, gone]
  | upsert row => cases unfound
  | delete key => cases unfound
  | rekey oldKey newKey row => simp only [step, unfound.1]

theorem again_unfound (unfound : op.Unfound T) : op.again l T = .ok T := by
  cases op with
  | maskedUpdate key row => exact if_pos unfound
  | upsert row => cases unfound
  | delete key => cases unfound
  | rekey oldKey newKey row => exact if_pos unfound.1

theorem again_masked (held : T k = some cur) :
    (maskedUpdate k r).again l T = .ok (Function.update T k (some (patch r cur))) := by
  rw [again, if_neg (by rw [held]; nofun), step_maskedUpdate held]

theorem again_moved (held : T j = some cur) (free : T k = none) : (rekey j k r).again l T =
    .ok (Function.update (Function.update T j none) k (some (patch r cur))) := by
  rw [again, if_neg (by rw [held]; nofun), step_rekey held free]

theorem again_clash (held : T j = some cur) (taken : T k ≠ none) :
    (rekey j k r).again l T = .error () := by
  obtain ⟨other, there⟩ := Option.ne_none_iff_exists'.mp taken
  rw [again, if_neg (by rw [held]; nofun)]
  simp only [step, held, there]

theorem confined_again (l : Layout) (op : ResidueOp) : Confined (op.keys l) (op.again l) := by
  intro T U same
  cases op with
  | maskedUpdate key row =>
      have at_key : T key = U key := same (Set.mem_singleton key)
      simp only [again, ← at_key]
      split
      · rw [Except.map, piecewise_self same]
      · exact confined_step l _ T U same
  | upsert row => exact confined_step l _ T U same
  | delete key => exact confined_step l _ T U same
  | rekey oldKey newKey row =>
      have at_old : T oldKey = U oldKey := same (Set.mem_insert ..)
      simp only [again, ← at_old]
      split
      · rw [Except.map, piecewise_self same]
      · exact confined_step l _ T U same

theorem keyed_again (fits : op.Fits l) (keyed : T.Keyed l) (means : op.again l T = .ok T') :
    T'.Keyed l := by
  cases op with
  | maskedUpdate key row =>
      rw [again] at means
      split at means
      · exact Except.ok.inj means ▸ keyed
      · exact keyed_step fits keyed means
  | upsert row => exact keyed_step fits keyed means
  | delete key => exact keyed_step fits keyed means
  | rekey oldKey newKey row =>
      rw [again] at means
      split at means
      · exact Except.ok.inj means ▸ keyed
      · exact keyed_step fits keyed means

end again

end ResidueOp

namespace DestPg

section tail

variable {l : Layout} {op : ResidueOp} {T T' : Table} {destTable : String} {moot : Bool}

/-- An op that means something to a table that may be ahead of it does that, unless it
misses its row and is not moot. -/
theorem applyOp_again (destTable : String) (fits : op.Fits l) (keyed : T.Keyed l)
    (means : op.again l T = .ok T')
    (forgiven : ∀ k ∈ missed l T op, moot = true) : applyOp l destTable moot op T = .ok T' := by
  cases op with
  | maskedUpdate key row =>
      rw [again] at means
      split at means
      · rename_i gone
        obtain rfl := Except.ok.inj means
        simp only [applyOp]
        split
        · rfl
        · rename_i shipped
          have is_moot := forgiven key ⟨gone, if_neg shipped⟩
          simp [updateWhere, gone, Except.bind, is_moot]
      · exact applyOp_of_step fits keyed means moot
  | upsert row => exact applyOp_of_step fits keyed means moot
  | delete key => exact applyOp_of_step fits keyed means moot
  | rekey oldKey newKey row =>
      rw [again] at means
      split at means
      · rename_i gone
        obtain rfl := Except.ok.inj means
        simp only [applyOp]
        split
        · rfl
        · rename_i shipped
          have passed : ¬(True ∧ moot = false ∧ T newKey = none) := by
            rintro ⟨-, strict, free⟩
            have is_moot := forgiven newKey ⟨⟨gone, free⟩, if_neg shipped⟩
            rw [strict] at is_moot
            cases is_moot
          simp only [updateWhere, gone, Except.bind]
          rw [if_neg passed]
      · exact applyOp_of_step fits keyed means moot

/-- A move of a row onto another one's key is refused by the primary key. -/
theorem applyOp_clash (destTable : String) (moot : Bool) (fits : op.Fits l) (moves : op.Moves)
    (keyed : T.Keyed l)
    (clash : op.again l T = .error ()) : ∃ e, applyOp l destTable moot op T = .error e := by
  cases op with
  | maskedUpdate key row =>
      rw [again] at clash
      split at clash
      · cases clash
      · rename_i found
        obtain ⟨cur, held⟩ := Option.ne_none_iff_exists'.mp found
        rw [step_maskedUpdate held] at clash
        cases clash
  | upsert row =>
      obtain ⟨k, isRow⟩ := fits
      cases (step_upsert isRow.key).symm.trans clash
  | delete key => cases clash
  | rekey oldKey newKey row =>
      rw [again] at clash
      split at clash
      · cases clash
      · rename_i found
        obtain ⟨cur, held⟩ := Option.ne_none_iff_exists'.mp found
        have taken : T newKey ≠ none := by
          intro free
          rw [step_rekey held free] at clash
          cases clash
        have own := keyed oldKey cur held
        refine ⟨dbErr "duplicate key value violates unique constraint", ?_⟩
        simp only [applyOp]
        split
        · rename_i nothing
          have noneSkipped : ∀ (i : Nat) (name : String), l.cols[i]? = some name → false = true →
              row[i]? = cur[i]? := fun _ _ _ skipped => (by cases skipped)
          have unmoved := patch_of_setList_nil l.cols_nodup fits.1 own.width noneSkipped nothing
          have key := Layout.keyTexts_patch fits.2 cur
          rw [unmoved, own.key, Option.some.injEq] at key
          exact absurd key.symm moves
        · simp only [updateWhere, held, keyAfter_moved fits.2]
          rw [if_pos ⟨moves, taken⟩]
          rfl

/-- The ops of a tail that run and miss their row are moot. -/
def TailForgives (l : Layout) (destTable : String) : List (ResidueOp × Bool) → Table → Prop
  | [], _ => True
  | (op, moot) :: ops, T => (∀ k ∈ missed l T op, moot = true) ∧
      ∀ T', applyOp l destTable moot op T = .ok T' → TailForgives l destTable ops T'

theorem tailForgives_iff {ops : List (ResidueOp × Bool)} : TailForgives l destTable ops T ↔
    ∀ pre op moot post here, ops = pre ++ (op, moot) :: post →
      applyResidue l destTable pre T = .ok here → ∀ k ∈ missed l here op, moot = true := by
  induction ops generalizing T with
  | nil => exact ⟨fun _ pre _ _ _ _ split => absurd split (by simp), fun _ => trivial⟩
  | cons first ops ih =>
      simp only [TailForgives, ih]
      constructor
      · rintro ⟨head, rest⟩ pre op moot post here split ran
        cases pre with
        | nil =>
            obtain ⟨rfl, rfl⟩ := List.cons.inj split
            obtain rfl := Except.ok.inj ran
            exact head
        | cons before pre =>
            obtain ⟨rfl, behind⟩ := List.cons.inj split
            obtain ⟨T', did, ran⟩ := bind_eq_ok.mp ran
            exact rest T' did pre op moot post here behind ran
      · intro all
        refine ⟨all [] _ _ ops T rfl rfl, fun T' did pre op moot post here split ran => ?_⟩
        refine all (first :: pre) op moot post here (by rw [split]; rfl) ?_
        rw [applyResidue, did]
        exact ran

/-- Nothing is owed once a tail has stopped. -/
theorem settled_none {sem : ResidueOp → Table → Except Unit Table} (ops : List ResidueOp) :
    Settled (onward sem) (missedOn l) taken none ops := by
  induction ops with
  | nil => trivial
  | cons op ops ih =>
      refine ⟨?_, ih⟩
      rintro k ⟨T, is, -⟩
      cases is

/-- What a tail misses is forgiven when its debts are settled. -/
theorem tailForgives_iff_settled {ops : List ResidueOp} (fits : ∀ op ∈ ops, op.Fits l)
    (moves : ∀ op ∈ ops, op.Moves) (keyed : T.Keyed l) :
    TailForgives l destTable (ops.zip (deletedLater ops).1) T ↔
      Settled (onward (again l)) (missedOn l) taken (some T) ops := by
  induction ops generalizing T with
  | nil => exact Iff.rfl
  | cons op ops ih =>
      obtain ⟨moot, flags, moot_iff⟩ := deletedLater_cons (l := l) op ops
      have fits_op := fits op (.head _)
      have ih := fun {T : Table} => @ih T (fun op' mem => fits op' (.tail _ mem))
        fun op' mem => moves op' (.tail _ mem)
      have head : (∀ k ∈ missed l T op, moot = true) ↔
          ∀ k ∈ missedOn l (some T) op, ∃ later ∈ ops, k ∈ later.taken := by
        rw [missedOn_some]
        exact forall₂_congr fun k missing => moot_iff k missing.2
      rw [flags, List.zip_cons_cons, TailForgives, Settled, head]
      refine and_congr_right fun paid => ?_
      cases means : op.again l T with
      | error e =>
          obtain ⟨e', refused⟩ := applyOp_clash destTable moot fits_op
            (moves op (.head _)) keyed means
          have stopped : onward (again l) (some T) op = none := by
            rw [onward, Option.bind_some, means]
            rfl
          rw [refused, stopped]
          exact iff_of_true (fun T' did => by cases did) (settled_none ops)
      | ok T₁ =>
          have did := applyOp_again destTable fits_op keyed means (head.mpr paid)
          rw [did, onward_eq means, ← ih (keyed_again fits_op keyed means)]
          exact ⟨fun all => all T₁ rfl, fun here T' is => Except.ok.inj is ▸ here⟩

end tail

/-- The table that a window's tail starts from. -/
def setPhases (w : TableWindow Collapsed) (T : Table) : Except Error Table := do
  let c := w.body
  let T := if c.truncate then fun _ => none else T
  let T := deleteKeys (c.deletes ++ c.upserts.map fun row =>
    rowKeyRefs w.layout.keyIdx row.toCells) T
  let rows ← c.upserts.mapM renderCopyRow
  rows.foldlM (insertRow w.layout) T

theorem applyUnit_eq (destTable : String) (w : TableWindow Collapsed) (T : Table) :
    applyUnit destTable (some w) T = (setPhases w T).bind fun T =>
      (applyResidue w.layout destTable (w.body.residue.zip (deletedLater w.body.residue).1) T).bind
        fun T => .ok (w.body.events, T) := by
  simp only [applyUnit, setPhases, bind, Except.bind, pure, Except.pure]
  cases w.body.upserts.mapM renderCopyRow <;> rfl

/-- An op of a window's tail, when it runs, with the table it runs on. -/
def Reaches (destTable : String) (w : TableWindow Collapsed) (T : Table)
    (op : ResidueOp) (moot : Bool)
    (here : Table) : Prop :=
  ∃ base pre post, setPhases w T = .ok base ∧
    w.body.residue.zip (deletedLater w.body.residue).1 = pre ++ (op, moot) :: post ∧
    applyResidue w.layout destTable pre base = .ok here

/-- Every op that is reached and finds no row, neither at its key nor where it moves it, is
one that `deletedLater` forgives. -/
def Forgives (destTable : String) (w : TableWindow Collapsed) (T : Table) : Prop :=
  ∀ op moot here, Reaches destTable w T op moot here → ∀ k ∈ missed w.layout here op, moot = true

end DestPg

/-! ## What a destination holds as the events go by -/

/-- A destination under a window's events: the keys it has rows at, and whether the
primary key has stopped the window's tail. -/
structure Replayed where
  present : Set Key
  stopped : Prop

namespace Replayed

variable (l : Layout)

/-- A row moves, without all its cells, onto the key of another that is there. -/
def Clashes (P : Set Key) (op : StreamOp) : Prop :=
  op.defers l = true ∧ ∃ j ∈ P, ∃ k ∈ P, op.oldKey? l = some j ∧ op.newKey? l = some k ∧ k ≠ j

def next (r : Replayed) (op : StreamOp) : Replayed where
  present := op.carry l r.present
  stopped := op ≠ .truncate ∧ (r.stopped ∨ Clashes l r.present op)

/-- The key where an event without all its cells finds no row, neither the one it is about
nor one where it leaves it. -/
def owes (r : Replayed) (op : StreamOp) : Set Key :=
  {k | ¬r.stopped ∧ k ∉ r.present ∧ k ∈ op.owes l r.present}

end Replayed

/-- From the rows at `P`, each event without all its cells finds the row it is about or one
where it leaves it, or a later event takes the row that it leaves; up to a move that the
primary key refuses. -/
def FindsAgain (l : Layout) (P : Set Key) (ops : List StreamOp) : Prop :=
  Settled (Replayed.next l) (Replayed.owes l) (pays l) ⟨P, False⟩ ops

/-- What an overlay lands on a table that may be ahead of it. -/
structure LandsAgain (l : Layout) (o : Overlay Key (List Cell) ResidueOp) (T₀ : Table)
    (r : Replayed)
    (D : Set Key) : Prop where
  named : o.Named (ResidueOp.keys l)
  moves : ∀ op ∈ o.tail, op.Moves
  going : ¬r.stopped → ∃ T : Table, o.meaning (again l) T₀ = .ok T ∧ T.Keyed l ∧
    T.present = r.present
  halted : r.stopped → o.meaning (again l) T₀ = .error ()
  debt : debt (again l) l o T₀ = D

namespace LandsAgain

variable {l : Layout} {o o' : Overlay Key (List Cell) ResidueOp} {T₀ : Table} {S S' : SourceTable l}
  {P D : Set Key} {p : Prop} {k : Key} {r : List Cell} {op : StreamOp}

theorem moves_write (moves : ∀ op ∈ o.tail, op.Moves) :
    ∀ op ∈ (o.write k r (.upsert r)).tail, op.Moves := by
  intro op mem
  unfold Overlay.write at mem
  split at mem
  · rcases List.mem_append.mp mem with old | new
    · exact moves op old
    · rw [List.mem_singleton.mp new]
      trivial
  · exact moves op mem

theorem moves_erase (moves : ∀ op ∈ o.tail, op.Moves) :
    ∀ op ∈ (o.erase k (.delete k)).tail, op.Moves := by
  intro op mem
  unfold Overlay.erase at mem
  split at mem
  · rcases List.mem_append.mp mem with old | new
    · exact moves op old
    · rw [List.mem_singleton.mp new]
      trivial
  · exact moves op mem

theorem write (lands : LandsAgain l o T₀ ⟨P, p⟩ D) (isRow : l.IsRow k r) :
    LandsAgain l (o.write k r (.upsert r)) T₀ ⟨insert k P, p⟩ D := by
  obtain ⟨named, moves, going, halted, rfl⟩ := lands
  have does (T' : Table) : again l (.upsert r) T' = .ok (Function.update T' k (some r)) :=
    step_upsert isRow.key
  have means := Overlay.meaning_write_map (T := T₀) (named.kept (confined_again l)) does
  refine ⟨named.write (keys_upsert isRow.key), moves_write moves, ?_, ?_,
    debt_write (confined_again l) named⟩
  · intro on
    obtain ⟨T, ran, keyed, rfl⟩ := going on
    exact ⟨_, means.trans (by rw [ran]; rfl), keyed.put isRow, present_put⟩
  · intro off
    rw [means, halted off]
    rfl

theorem erase (lands : LandsAgain l o T₀ ⟨P, p⟩ D) (k : Key) :
    LandsAgain l (o.erase k (.delete k)) T₀ ⟨P \ {k}, p⟩ (D \ {k}) := by
  obtain ⟨named, moves, going, halted, rfl⟩ := lands
  have does (T' : Table) : again l (.delete k) T' = .ok (Function.update T' k none) := rfl
  have means := Overlay.meaning_erase_map (T := T₀) (named.kept (confined_again l)) does
  refine ⟨named.erase rfl, moves_erase moves, ?_, ?_, debt_erase (confined_again l) named⟩
  · intro on
    obtain ⟨T, ran, keyed, rfl⟩ := going on
    exact ⟨_, means.trans (by rw [ran]; rfl), keyed.erase k, present_erase⟩
  · intro off
    rw [means, halted off]
    rfl

theorem congr {P' D' : Set Key} {p' : Prop} (lands : LandsAgain l o T₀ ⟨P, p⟩ D) (present : P = P')
    (stopped : p ↔ p') (owed : D = D') : LandsAgain l o T₀ ⟨P', p'⟩ D' :=
  present ▸ propext stopped ▸ owed ▸ lands

/-- An event that ships its image whole never stops the tail, and owes nothing. -/
theorem whole_spec (op : StreamOp) (whole : op.defers l = false) (kept : op ≠ .truncate) :
    (p ↔ op ≠ .truncate ∧ (p ∨ Replayed.Clashes l P op)) ∧ Replayed.owes l ⟨P, p⟩ op = ∅ := by
  constructor
  · simp [kept, Replayed.Clashes, whole]
  · rw [Replayed.owes, owes_of_whole whole]
    ext i
    simp

/-- A row is masked where it is, or passed over. -/
theorem mask (lands : LandsAgain l o T₀ ⟨P, p⟩ D) (fits : (ResidueOp.maskedUpdate k r).Fits l)
    (from_ : op.oldKey? l = some k) (onto : op.newKey? l = some k) (defers : op.defers l = true)
    (sets : op.sets l = setList (isPk l) l.cols r) :
    LandsAgain l (o.defer (.maskedUpdate k r) {k}) T₀ (Replayed.next l ⟨P, p⟩ op)
      (D \ pays l op ∪ Replayed.owes l ⟨P, p⟩ op) := by
  obtain ⟨named, moves, going, halted, rfl⟩ := lands
  have kept := kept_of_old from_
  have stays : ¬Replayed.Clashes l P op := by
    rintro ⟨-, i, -, i', -, at_i, at_i', ne⟩
    rw [from_, Option.some.injEq] at at_i
    rw [onto, Option.some.injEq] at at_i'
    exact ne (at_i'.symm.trans at_i)
  have same : op.carry l P = P := carry_mask from_ onto defers
  have quiet : (setList (isPk l) l.cols r).isEmpty = true ↔ op.sets l = [] := by
    rw [sets, List.isEmpty_iff]
  have still : (Replayed.next l ⟨P, p⟩ op).stopped ↔ p := by simp [Replayed.next, kept, stays]
  refine ⟨named.defer rfl, ?_, fun on => ?_, fun off => ?_, ?_⟩
  · intro op' mem
    rcases List.mem_append.mp mem with old | new
    · exact moves op' old
    · rw [List.mem_singleton.mp new]
      trivial
  · obtain ⟨T, ran, keyed, present⟩ := going (still.not.mp on)
    dsimp only at present
    subst present
    rw [Overlay.meaning_defer, ran, Replayed.next, same]
    cases here : T k with
    | none =>
        have unfound : (ResidueOp.maskedUpdate k r).Unfound T := here
        exact ⟨T, again_unfound unfound, keyed, rfl⟩
    | some cur =>
        refine ⟨_, again_masked here, keyed.put (Layout.isRow_patch fits.1 fits.2
          (keyed k cur here)), ?_⟩
        have there : k ∈ T.present := fun none_ => (by cases here.symm.trans none_)
        rw [present_put, Set.insert_eq_of_mem there]
  · rw [Overlay.meaning_defer, halted (still.mp off)]
    rfl
  · rw [debt_defer]
    by_cases off : p
    · rw [halted off]
      ext i
      simp [Replayed.owes, off, missedOn, taken, pays, kept, from_, onto, Except.toOption]
    · obtain ⟨T, ran, keyed, rfl⟩ := going off
      rw [ran, Except.toOption, missedOn_some]
      ext i
      simp [Replayed.owes, off, StreamOp.owes, pays, taken, missed, probed?, Unfound,
        Table.present, kept,
        from_, onto, defers, quiet]
      grind

/-- A row moves without all its cells, is passed over, or is in another one's way. -/
theorem move (lands : LandsAgain l o T₀ ⟨P, p⟩ D) {j : Key} {cur : List Cell} (ne : k ≠ j)
    (held : S.rows j = some cur) (fits : (ResidueOp.rekey j k r).Fits l)
    (isRow : l.IsRow k (patch r cur)) (from_ : op.oldKey? l = some j) (onto : op.newKey? l = some k)
    (defers : op.defers l = true) :
    LandsAgain l (o.defer (.rekey j k r) {j, k}) T₀ (Replayed.next l ⟨P, p⟩ op)
      (D \ pays l op ∪ Replayed.owes l ⟨P, p⟩ op) := by
  obtain ⟨named, moves, going, halted, rfl⟩ := lands
  have kept := kept_of_old from_
  have clashes : Replayed.Clashes l P op ↔ j ∈ P ∧ k ∈ P := by
    simp only [Replayed.Clashes, defers, from_, onto, Option.some.injEq, true_and]
    constructor
    · rintro ⟨_, in_j, _, in_k, rfl, rfl, -⟩
      exact ⟨in_j, in_k⟩
    · rintro ⟨in_j, in_k⟩
      exact ⟨j, in_j, k, in_k, rfl, rfl, ne⟩
  have still : (Replayed.next l ⟨P, p⟩ op).stopped ↔ p ∨ j ∈ P ∧ k ∈ P := by
    simp [Replayed.next, kept, clashes]
  have shipped := ships_of_moves ne held fits isRow
  refine ⟨named.defer rfl, ?_, fun on => ?_, fun off => ?_, ?_⟩
  · intro op' mem
    rcases List.mem_append.mp mem with old | new
    · exact moves op' old
    · rw [List.mem_singleton.mp new]
      exact ne
  · rw [still, not_or] at on
    obtain ⟨T, ran, keyed, present⟩ := going on.1
    dsimp only at present
    subst present
    rw [Overlay.meaning_defer, ran]
    cases here : T j with
    | none =>
        have absent : j ∉ T.present := fun there => there here
        exact ⟨T, if_pos here, keyed, (carry_passed from_ onto defers absent).symm⟩
    | some cur' =>
        have there : j ∈ T.present := fun none_ => (by cases here.symm.trans none_)
        have free : T k = none := by
          by_contra in_k
          exact on.2 ⟨there, in_k⟩
        refine ⟨_, again_moved here free,
          (keyed.erase j).put (Layout.isRow_patch fits.1 fits.2 (keyed j cur' here)), ?_⟩
        rw [present_put, present_erase, Replayed.next, carry_move from_ onto defers there]
  · rw [Overlay.meaning_defer]
    by_cases before : p
    · rw [halted before]
      rfl
    · obtain ⟨T, ran, keyed, present⟩ := going before
      dsimp only at present
      subst present
      obtain ⟨in_j, in_k⟩ := (still.mp off).resolve_left before
      obtain ⟨cur', here⟩ := Option.ne_none_iff_exists'.mp in_j
      rw [ran]
      exact again_clash here in_k
  · rw [debt_defer]
    by_cases off : p
    · rw [halted off]
      ext i
      simp [Replayed.owes, off, missedOn, taken, pays, kept, from_, onto, Except.toOption]
      grind
    · obtain ⟨T, ran, keyed, rfl⟩ := going off
      rw [ran, Except.toOption, missedOn_some]
      ext i
      simp [Replayed.owes, off, StreamOp.owes, pays, taken, missed, probed?, Unfound,
        Table.present, kept,
        from_, onto, defers, shipped]
      grind

/-- How what an overlay lands grows with an event. -/
theorem of_files (lands : LandsAgain l o T₀ ⟨P, p⟩ D) (files : Files S o op S' o') :
    LandsAgain l o' T₀ (Replayed.next l ⟨P, p⟩ op) (D \ pays l op ∪ Replayed.owes l ⟨P, p⟩ op) := by
  cases files with
  | @put row k isRow free =>
      have own : ∀ i, (StreamOp.insert row).oldKey? l = some i → i = k := nofun
      obtain ⟨still, nothing⟩ := whole_spec (l := l) (P := P) (p := p) (.insert row) rfl nofun
      refine (lands.write isRow).congr (carry_put own isRow.key rfl).symm still ?_
      rw [nothing, pays_put own isRow.key, Set.sdiff_empty, Set.union_empty]
  | @rewrite old row full k r cur held isRow from_ onto whole =>
      have own i (is : (StreamOp.update old row full).oldKey? l = some i) : i = k :=
        Option.some.inj (is.symm.trans from_)
      obtain ⟨still, nothing⟩ := whole_spec (P := P) (p := p) _ whole nofun
      refine (lands.write isRow).congr (carry_put own onto whole).symm still ?_
      rw [nothing, pays_put own onto, Set.sdiff_empty, Set.union_empty]
  | replace ne held free isRow from_ onto whole =>
      obtain ⟨still, nothing⟩ := whole_spec (P := P) (p := p) _ whole nofun
      refine ((lands.erase _).write isRow).congr (carry_replace from_ onto whole).symm still ?_
      rw [nothing, pays_replace ne from_ onto, Set.union_empty]
  | mask held fits isRow from_ onto defers sets => exact lands.mask fits from_ onto defers sets
  | move ne held free fits isRow from_ onto defers =>
      exact lands.move ne held fits isRow from_ onto defers
  | @erase old k cur held from_ =>
      obtain ⟨still, nothing⟩ := whole_spec (l := l) (P := P) (p := p) (.delete old) rfl nofun
      refine (lands.erase _).congr (carry_erase from_ rfl).symm still ?_
      rw [nothing, pays_erase from_ rfl, Set.union_empty]
  | clear =>
      refine ⟨.clear, fun op mem => (by cases mem), fun _ =>
        ⟨_, Overlay.meaning_clear, fun k r held => (by cases held), ?_⟩,
        fun off => absurd rfl off.1, ?_⟩
      · ext i
        simp [Replayed.next, carry, Table.present]
      · ext i
        simp [Replayed.owes, StreamOp.owes, pays, defers, Apitap.debt, due, Overlay.clear,
          Overlay.empty]

theorem new {T : Table} (keyed : T.Keyed l) :
    LandsAgain l (Collapser.new l).overlay T ⟨T.present, False⟩ ∅ := by
  rw [Collapser.overlay_new]
  exact ⟨.empty, nofun, fun _ => ⟨T, Overlay.meaning_empty, keyed, rfl⟩, False.elim, rfl⟩

end LandsAgain

/-- Landing a legal window, and what applying it to another table finds. -/
theorem Tracks.landAll_again {l : Layout} {T₀ T : Table} {c : Collapser} {S S' : SourceTable l}
    {seen D : Set Key} {r : Replayed} {events : List (Nat × StreamOp)} (tracks : Tracks T₀ c S seen)
    (lands : LandsAgain l c.overlay T r D) (legal : S.run? (events.map Prod.snd) = some S') :
    ∃ c' seen' r', c.landAll events = .ok c' ∧ Tracks T₀ c' S' seen' ∧
      LandsAgain l c'.overlay T r'
        (due (Replayed.next l) (Replayed.owes l) (pays l) r D (events.map Prod.snd)) := by
  let holds o (_ : SourceTable l) ops := LandsAgain l o T (ops.foldl (Replayed.next l) r)
    (due (Replayed.next l) (Replayed.owes l) (pays l) r D ops)
  have files : ∀ o S op S' o' ops, Files S o op S' o' → holds o S ops →
      holds o' S' (ops ++ [op]) := by
    intro o S op S' o' ops files lands
    have after := LandsAgain.of_files lands files
    change LandsAgain l o' T ((ops ++ [op]).foldl _ r) _
    rw [List.foldl_concat, due_concat]
    exact after
  have first : holds c.overlay S [] := lands
  obtain ⟨c', seen', landed, tracks', lands'⟩ := tracks.landAll_files holds files first legal
  exact ⟨c', seen', _, landed, tracks', lands'⟩

namespace DestPg

theorem setPhases_eq_base {c : Collapser} (sound : c.Sound) (T : Table) :
    setPhases ⟨c.layout, c.finish, sound.rowsFit⟩ T = .ok (c.overlay.base T) := by
  have rendered : c.finish.upserts.mapM renderCopyRow = .ok c.images := by
    rw [← Collapser.upserts_finish]
    refine mapM_renderCopyRow fun r mem => ?_
    obtain ⟨k, isRow⟩ := sound.isRow_of_mem_images (List.mem_map_of_mem mem)
    exact isRow.whole
  simp only [setPhases, rendered, bind, Except.bind, setPhase_eq_base sound T]

/-- What a window's tail misses on a table is what its overlay is owed there. -/
theorem forgives_iff {c : Collapser} (sound : c.Sound) {T : Table} (keyed : T.Keyed c.layout)
    {r : Replayed} {D : Set Key} (lands : LandsAgain c.layout c.overlay T r D)
    (destTable : String) :
    Forgives destTable ⟨c.layout, c.finish, sound.rowsFit⟩ T ↔ D = ∅ := by
  have settled : Settled (onward (again c.layout)) (missedOn c.layout) taken
      (some (c.overlay.base T)) c.overlay.tail ↔ D = ∅ := by
    rw [settled_iff]
    exact Eq.congr_left lands.debt
  have tail : TailForgives c.layout destTable (c.overlay.tail.zip (deletedLater c.overlay.tail).1)
      (c.overlay.base T) ↔ _ :=
    tailForgives_iff_settled sound.fits lands.moves (sound.keyed_base keyed)
  rw [← settled, ← tail, tailForgives_iff]
  constructor
  · intro forgives pre op moot post here split ran
    exact forgives op moot here ⟨_, pre, post, setPhases_eq_base sound T, split, ran⟩
  · rintro all op moot here ⟨base, pre, post, started, split, ran⟩
    obtain rfl := Except.ok.inj ((setPhases_eq_base sound T).symm.trans started)
    exact all pre op moot post here split ran

/-- Where the overlay means what the source does, each op of the tail finds its row. -/
theorem finds_each {c : Collapser} (sound : c.Sound) {T T' : Table} (keyed : T.Keyed c.layout)
    (means : c.overlay.meaning (ResidueOp.step c.layout) T = .ok T') {destTable : String}
    {op : ResidueOp} {moot : Bool} {here : Table}
    (reaches : Reaches destTable ⟨c.layout, c.finish, sound.rowsFit⟩ T op moot here) :
    ¬op.Unfound here := by
  obtain ⟨base, pre, post, started, split, ran⟩ := reaches
  obtain rfl := Except.ok.inj ((setPhases_eq_base sound T).symm.trans started)
  have fits : ∀ op ∈ pre, op.1.Fits c.layout := by
    intro op' mem
    have inside : op' ∈ c.finish.residue.zip (deletedLater c.finish.residue).1 :=
      split ▸ List.mem_append_left _ mem
    exact sound.fits op'.1 (List.of_mem_zip inside).1
  have ops : c.overlay.tail = pre.map Prod.fst ++ op :: post.map Prod.fst := by
    have unzipped := congrArg (List.map Prod.fst) split
    rwa [List.map_fst_zip (Nat.le_of_eq (length_deletedLater _).symm), List.map_append,
      List.map_cons]
      at unzipped
  rw [Overlay.meaning, ops, runOps_append] at means
  obtain ⟨T₁, before, rest⟩ := bind_eq_ok.mp means
  obtain rfl : T₁ = here := by
    have did : applyResidue c.layout destTable pre (c.overlay.base T) = .ok T₁ :=
      applyResidue_of_runOps fits (sound.keyed_base keyed) before
    exact Except.ok.inj (did.symm.trans ran)
  intro unfound
  rw [runOps_cons, step_unfound unfound] at rest
  cases rest

/-- A window applied over what a first part of it left forgives each row it misses exactly
when its events find theirs again; applied where none of it has been, it misses none. -/
theorem reapplied_forgives {l : Layout} {S S₁ S₂ : SourceTable l}
    {events₁ events₂ : List (Nat × StreamOp)}
    (destTable : String) (legal₁ : S.run? (events₁.map Prod.snd) = some S₁)
    (legal₂ : S₁.run? (events₂.map Prod.snd) = some S₂) :
    ∃ c w, (Collapser.new l).landAll (events₁ ++ events₂) = .ok c ∧ c.seal destTable = .ok w ∧
      (Forgives destTable w S₁.rows ↔
        FindsAgain l (Table.present S₁.rows) ((events₁ ++ events₂).map Prod.snd)) ∧
      applyUnit destTable (some w) S.rows = .ok (c.events, S₂.rows) ∧
      ∀ op moot here, Reaches destTable w S.rows op moot here → ¬op.Unfound here := by
  have legal : S.run? ((events₁ ++ events₂).map Prod.snd) = some S₂ := by
    rw [List.map_append, SourceTable.run?_append, legal₁]
    exact legal₂
  obtain ⟨c, seen, r, landed, tracks, lands⟩ := (Tracks.new S).landAll_again (.new S₁.keyed) legal
  obtain rfl := tracks.layout
  refine ⟨c, _, landed, tracks.sound.seal destTable, ?_, ?_, ?_⟩
  · rw [FindsAgain, settled_iff]
    exact forgives_iff tracks.sound S₁.keyed lands destTable
  · exact applyUnit_of_meaning tracks.sound S.keyed tracks.means
  · intro op moot here reaches
    exact finds_each tracks.sound S.keyed tracks.means reaches

/-- A row moves without its body, and then its old key is used again. -/
theorem reapplied_forgives_move : ∃ c w,
    (Collapser.new Sample.layout).landAll (Sample.moveThenReuse.take 1 ++
      Sample.moveThenReuse.drop 1) = .ok c ∧
      c.seal "t" = .ok w ∧
      (Forgives "t" w ((Sample.one.run? ((Sample.moveThenReuse.take 1).map Prod.snd)).get
        (by decide)).rows ↔
        FindsAgain Sample.layout
          (Table.present ((Sample.one.run? ((Sample.moveThenReuse.take 1).map Prod.snd)).get
            (by decide)).rows)
          ((Sample.moveThenReuse.take 1 ++ Sample.moveThenReuse.drop 1).map Prod.snd)) ∧
      applyUnit "t" (some w) Sample.one.rows =
        .ok (c.events, ((Sample.one.run? (Sample.moveThenReuse.map Prod.snd)).get (by decide)).rows)
          ∧
      ∀ op moot here, Reaches "t" w Sample.one.rows op moot here → ¬op.Unfound here :=
  reapplied_forgives "t" (Option.some_get _).symm (Option.some_get _).symm

namespace Twice

def pair : SourceTable Sample.layout := Sample.one.put (Sample.key 2) _ (Sample.isRow 2 20)

/-- The second row, touched, goes, and the first one takes its key without its body. -/
def taken : List (Nat × StreamOp) :=
  [(100, .update none (Sample.masked 2) false), (100, .delete (Sample.image 2 20)),
    (100, .update (some (Sample.image 1 10)) (Sample.masked 2) false)]

/-- Applied again, the window deletes the row that has already moved, and does not forgive
the move for it. -/
theorem moved_row_is_taken : ∃ S₁ c w, pair.run? (taken.map Prod.snd) = some S₁ ∧
    (Collapser.new Sample.layout).landAll (taken ++ []) = .ok c ∧ c.seal "t" = .ok w ∧
      ¬Forgives "t" w S₁.rows := by
  refine ⟨_, _, _, rfl, rfl, rfl, fun forgives => ?_⟩
  have moot := forgives _ false _ ⟨_, [_, _], [], rfl, rfl, rfl⟩ (Sample.key 2) ?_
  · cases moot
  · exact ⟨⟨rfl, rfl⟩, rfl⟩

end Twice

end DestPg

end Apitap
