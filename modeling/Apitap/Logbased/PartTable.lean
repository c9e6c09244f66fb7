import Apitap.Logbased.Forgiven

/-!
# A window on part of the source's table

A table may lack rows that the source has. A window lands on it as an overlay does, with
the rows that are not there passed over, and leaves part of what the source has behind
the window. Which rows these are, and at which keys the tail is still owed one, follows
from the keys that the window's events name.
-/

namespace Apitap

open Foundation DestPg ResidueOp

namespace StreamOp

variable (l : Layout)

/-- The keys whose rows a table has after an event, when it has those of `P` before it: an
image without all its cells is written to a row that is there, or not at all. -/
def carry (P : Set Key) (op : StreamOp) : Set Key :=
  {k | op ≠ .truncate ∧ (k ∈ P ∧ op.oldKey? l ≠ some k ∨
    op.newKey? l = some k ∧ (op.defers l = true → ∃ j ∈ P, op.oldKey? l = some j))}

/-- The key where an event without all its cells leaves a row that the table lacks. An
update that sets nothing leaves none. -/
def owes (P : Set Key) (op : StreamOp) : Set Key :=
  {k | op.defers l = true ∧ op.newKey? l = some k ∧ (∃ j ∉ P, op.oldKey? l = some j) ∧
    (op.oldKey? l = some k → op.sets l ≠ [])}

/-- The keys an event takes the row from. -/
def pays (op : StreamOp) : Set Key :=
  {k | op = .truncate ∨ op.oldKey? l = some k ∧ op.newKey? l ≠ some k}

/-- Each event without all its cells is about a row that the table still has, when it has
those of `P` at first, or a later event takes the row it leaves. -/
def Finds (P : Set Key) (ops : List StreamOp) : Prop := Settled (carry l) (owes l) (pays l) P ops

end StreamOp

open StreamOp

/-- The keys a table has rows for. -/
def Table.present (T : Table) : Set Key := {k | T k ≠ none}

/-! ## Events, by the keys they name -/

section events

variable {l : Layout} {P : Set Key} {j k : Key} {op : StreamOp}

theorem kept_of_old (from_ : op.oldKey? l = some k) : op ≠ .truncate := by
  rintro rfl
  cases from_

theorem kept_of_new (onto : op.newKey? l = some k) : op ≠ .truncate := by
  rintro rfl
  cases onto

theorem owes_of_whole (whole : op.defers l = false) : op.owes l P = ∅ := by
  ext i
  simp [StreamOp.owes, whole]

/-- A whole row at its own key. -/
theorem carry_put (from_ : ∀ i, op.oldKey? l = some i → i = k) (onto : op.newKey? l = some k)
    (whole : op.defers l = false) : op.carry l P = insert k P := by
  have kept := kept_of_new onto
  ext i
  simp [carry, kept, onto, whole]
  grind

theorem pays_put (from_ : ∀ i, op.oldKey? l = some i → i = k) (onto : op.newKey? l = some k) :
    op.pays l = ∅ := by
  have kept := kept_of_new onto
  ext i
  simp [pays, kept, onto]
  grind

/-- A whole row in the place of another one's. -/
theorem carry_replace (from_ : op.oldKey? l = some j) (onto : op.newKey? l = some k)
    (whole : op.defers l = false) : op.carry l P = insert k (P \ {j}) := by
  have kept := kept_of_new onto
  ext i
  simp [carry, kept, from_, onto, whole]
  grind

theorem pays_replace (ne : k ≠ j) (from_ : op.oldKey? l = some j) (onto : op.newKey? l = some k) :
    op.pays l = {j} := by
  have kept := kept_of_new onto
  ext i
  simp [pays, kept, from_, onto]
  grind

theorem carry_erase (from_ : op.oldKey? l = some k) (onto : op.newKey? l = none) :
    op.carry l P = P \ {k} := by
  have kept := kept_of_old from_
  ext i
  simp [carry, kept, from_, onto]
  grind

theorem pays_erase (from_ : op.oldKey? l = some k) (onto : op.newKey? l = none) :
    op.pays l = {k} := by
  have kept := kept_of_old from_
  ext i
  simp [pays, kept, from_, onto, eq_comm]

/-- A row that is masked stays where it is. -/
theorem carry_mask (from_ : op.oldKey? l = some k) (onto : op.newKey? l = some k)
    (defers : op.defers l = true) : op.carry l P = P := by
  have kept := kept_of_old from_
  ext i
  simp [carry, kept, from_, onto, defers]
  grind

/-- A row without all its cells moves if it is there. -/
theorem carry_move (from_ : op.oldKey? l = some j) (onto : op.newKey? l = some k)
    (defers : op.defers l = true) (there : j ∈ P) : op.carry l P = insert k (P \ {j}) := by
  have kept := kept_of_old from_
  ext i
  simp [carry, kept, from_, onto, defers]
  grind

theorem carry_passed (from_ : op.oldKey? l = some j) (onto : op.newKey? l = some k)
    (defers : op.defers l = true) (absent : j ∉ P) : op.carry l P = P := by
  have kept := kept_of_old from_
  ext i
  simp [carry, kept, from_, onto, defers]
  grind

/-- A row that moves ships a cell of its key at least. -/
theorem ships_of_moves {S : SourceTable l} {r cur : List Cell} (ne : k ≠ j)
    (held : S.rows j = some cur) (fits : (ResidueOp.rekey j k r).Fits l)
    (isRow : l.IsRow k (patch r cur)) :
    (setList (fun _ => false) l.cols r).isEmpty = false := by
  by_contra nothing
  rw [Bool.not_eq_false] at nothing
  have own := S.keyed j cur held
  have noneSkipped : ∀ (i : Nat) (name : String), l.cols[i]? = some name → false = true →
      r[i]? = cur[i]? := fun _ _ _ skipped => nomatch skipped
  have unmoved := patch_of_setList_nil l.cols_nodup fits.1 own.width noneSkipped nothing
  rw [unmoved] at isRow
  exact ne (Option.some.inj (isRow.key.symm.trans own.key))

end events

/-- Every row of the table is the source's. -/
def Table.Part {l : Layout} (T : Table) (S : SourceTable l) : Prop :=
  ∀ k r, T k = some r → S.rows k = some r

/-- The keys that the tail of an overlay is still owed rows at. -/
noncomputable def debt (sem : ResidueOp → Table → Except Unit Table) (l : Layout)
    (o : Overlay Key (List Cell) ResidueOp) (T₀ : Table) : Set Key :=
  due (onward sem) (missedOn l) taken (some (o.base T₀)) ∅ o.tail

section tables

variable {l : Layout} {S : SourceTable l} {T : Table} {k : Key} {r : List Cell}

@[simp] theorem present_put : Table.present (Function.update T k (some r)) =
    insert k T.present := by
  ext i
  by_cases at_ : i = k
  · simp [Table.present, at_]
  · simp [Table.present, at_]

@[simp] theorem present_erase : Table.present (Function.update T k none) = T.present \ {k} := by
  ext i
  by_cases at_ : i = k
  · simp [Table.present, at_]
  · simp [Table.present, at_]

theorem Table.Part.put (part : T.Part S) (isRow : l.IsRow k r) :
    Table.Part (Function.update T k (some r)) (S.put k r isRow) := by
  intro i w held
  rw [SourceTable.put_rows]
  by_cases at_ : i = k
  · subst at_
    rwa [Function.update_self] at held ⊢
  · rw [Function.update_of_ne at_] at held ⊢
    exact part i w held

theorem Table.Part.erase (part : T.Part S) (k : Key) : Table.Part (Function.update T k none)
    (S.erase k) := by
  intro i w held
  rw [SourceTable.erase_rows]
  by_cases at_ : i = k
  · subst at_
    rw [Function.update_self] at held
    cases held
  · rw [Function.update_of_ne at_] at held ⊢
    exact part i w held

theorem Table.Part.keyed (part : T.Part S) : T.Keyed l :=
  fun k r held => S.keyed k r (part k r held)

/-- A row that the source wrote again, and the table lacks. -/
theorem Table.Part.put_absent (part : T.Part S) {isRow : l.IsRow k r} (gone : T k = none) :
    T.Part (S.put k r isRow) := by
  intro i w held
  rw [SourceTable.put_rows, Function.update_of_ne]
  · exact part i w held
  · rintro rfl
    rw [gone] at held
    cases held

theorem Table.Part.erase_absent (part : T.Part S) (gone : T k = none) : T.Part (S.erase k) := by
  intro i w held
  rw [SourceTable.erase_rows, Function.update_of_ne]
  · exact part i w held
  · rintro rfl
    rw [gone] at held
    cases held

theorem Table.Part.free (part : T.Part S) (free : S.rows k = none) : T k = none := by
  cases held : T k with
  | none => rfl
  | some r =>
      rw [part k r held] at free
      cases free

end tables

section debt

variable {sem : ResidueOp → Table → Except Unit Table} {l : Layout}
  {o o' : Overlay Key (List Cell) ResidueOp} {T₀ : Table} {k : Key} {v : List Cell} {op : ResidueOp}

theorem debt_subset (named : o.Named (ResidueOp.keys l)) : debt sem l o T₀ ⊆ o.sticky := by
  refine due_subset (fun op mem s k => ?_) (Set.empty_subset _)
  rintro ⟨T, -, missing⟩
  exact (named k).mpr ⟨op, mem, missed_subset l T op missing⟩

/-- Two tables that agree on a set of keys, or none at all. -/
private def Alike (F : Set Key) : Option Table → Option Table → Prop
  | some T, some U => Set.EqOn T U F
  | none, none => True
  | _, _ => False

/-- What the tail is owed depends on the sticky keys. -/
theorem debt_congr (confined : ∀ op, Confined (ResidueOp.keys l op) (sem op))
    (named : o.Named (ResidueOp.keys l)) (tail : o'.tail = o.tail)
    (same : Set.EqOn (o.base T₀) (o'.base T₀) o.sticky) : debt sem l o' T₀ = debt sem l o T₀ := by
  rw [debt, debt, tail]
  have start : Alike o.sticky (some (o.base T₀)) (some (o'.base T₀)) := same
  refine (due_congr (R := Alike o.sticky) (fun op mem s u alike => ?_) start).symm
  have inside : op.keys l ⊆ o.sticky := fun k own => (named k).mpr ⟨op, mem, own⟩
  match s, u with
  | none, none => exact ⟨rfl, trivial⟩
  | none, some _ => exact alike.elim
  | some _, none => exact alike.elim
  | some T, some U =>
      have agree : Set.EqOn T U o.sticky := alike
      have found : op.Unfound T ↔ op.Unfound U := unfound_congr (agree.mono inside)
      refine ⟨?_, ?_⟩
      · rw [missedOn_some, missedOn_some]
        exact Set.ext fun k => and_congr_left fun _ => found
      · have confined := (confined op).mono inside
        cases ran : sem op T with
        | error e =>
            have ran' := confined T U agree
            rw [ran] at ran'
            simp only [onward, Option.bind_some, ran, ran', Except.map]
            trivial
        | ok T' =>
            obtain ⟨U', ran', after, -⟩ := confined.agree ran agree
            rw [onward_eq ran, onward_eq ran']
            exact after

theorem debt_put (confined : ∀ op, Confined (ResidueOp.keys l op) (sem op))
    (named : o.Named (ResidueOp.keys l)) (free : k ∉ o.sticky) :
    debt sem l (o.put k v) T₀ = debt sem l o T₀ := by
  refine debt_congr confined named rfl fun i held => ?_
  rw [Overlay.base_put, Function.update_of_ne]
  rintro rfl
  exact free held

theorem debt_drop (confined : ∀ op, Confined (ResidueOp.keys l op) (sem op))
    (named : o.Named (ResidueOp.keys l)) (free : k ∉ o.sticky) :
    debt sem l (o.drop k) T₀ = debt sem l o T₀ := by
  refine debt_congr confined named rfl fun i held => ?_
  rw [Overlay.base_drop, Function.update_of_ne]
  rintro rfl
  exact free held

theorem debt_defer (op : ResidueOp) (F : Set Key) : debt sem l (o.defer op F) T₀ =
    debt sem l o T₀ \ op.taken ∪ missedOn l (o.meaning sem T₀).toOption op := by
  change due _ _ _ (some (o.base T₀)) ∅ (o.tail ++ [op]) = _
  rw [due_concat, foldl_onward]
  rfl

theorem debt_write (confined : ∀ op, Confined (ResidueOp.keys l op) (sem op))
    (named : o.Named (ResidueOp.keys l)) : debt sem l (o.write k v (.upsert v)) T₀ =
    debt sem l o T₀ := by
  by_cases held : k ∈ o.sticky
  · rw [Overlay.write, if_pos held, debt_defer]
    simp [taken, missedOn, missed, Unfound]
  · rw [Overlay.write, if_neg held]
    exact debt_put confined named held

theorem debt_erase (confined : ∀ op, Confined (ResidueOp.keys l op) (sem op))
    (named : o.Named (ResidueOp.keys l)) : debt sem l (o.erase k (.delete k)) T₀ =
    debt sem l o T₀ \ {k} := by
  by_cases held : k ∈ o.sticky
  · rw [Overlay.erase, if_pos held, debt_defer]
    simp [taken, missedOn, missed, Unfound]
  · rw [Overlay.erase, if_neg held, debt_drop confined named held, Set.sdiff_singleton_eq_self]
    exact fun owed => held (debt_subset named owed)

end debt

/-- An overlay lands part of the source's table: the rows at `P`, with `D` owed. -/
structure LandsPart (l : Layout) (o : Overlay Key (List Cell) ResidueOp) (T₀ : Table)
    (S : SourceTable l)
    (P D : Set Key) : Prop where
  named : o.Named (ResidueOp.keys l)
  means : ∃ T : Table, o.meaning (lenient l) T₀ = .ok T ∧ T.Part S ∧ T.present = P
  debt : debt (lenient l) l o T₀ = D

namespace LandsPart

variable {l : Layout} {o o' : Overlay Key (List Cell) ResidueOp} {T₀ : Table} {S S' : SourceTable l}
  {P D : Set Key} {k : Key} {r : List Cell} {op : StreamOp}

theorem write (lands : LandsPart l o T₀ S P D) (isRow : l.IsRow k r) :
    LandsPart l (o.write k r (.upsert r)) T₀ (S.put k r isRow) (insert k P) D := by
  obtain ⟨named, ⟨T, means, part, rfl⟩, rfl⟩ := lands
  have does : lenient l (.upsert r) T = .ok (Function.update T k (some r)) :=
    (lenient_of_found id).trans (step_upsert isRow.key)
  exact ⟨named.write (keys_upsert isRow.key),
    ⟨_, Overlay.meaning_write (named.kept (confined_lenient l)) means does,
     part.put isRow, present_put⟩,
    debt_write (confined_lenient l) named⟩

theorem erase (lands : LandsPart l o T₀ S P D) (k : Key) :
    LandsPart l (o.erase k (.delete k)) T₀ (S.erase k) (P \ {k}) (D \ {k}) := by
  obtain ⟨named, ⟨T, means, part, rfl⟩, rfl⟩ := lands
  have does : lenient l (.delete k) T = .ok (Function.update T k none) := lenient_of_found id
  exact ⟨named.erase rfl,
    ⟨_, Overlay.meaning_erase (named.kept (confined_lenient l)) means does, part.erase k,
     present_erase⟩,
    debt_erase (confined_lenient l) named⟩

theorem congr {P' D' : Set Key} (lands : LandsPart l o T₀ S P D) (present : P = P')
    (owed : D = D') :
    LandsPart l o T₀ S P' D' := present ▸ owed ▸ lands

/-- A row is masked where it is, or passed over. -/
theorem mask (lands : LandsPart l o T₀ S P D) {cur : List Cell} (held : S.rows k = some cur)
    (isRow : l.IsRow k (patch r cur)) (from_ : op.oldKey? l = some k) (onto : op.newKey? l = some k)
    (defers : op.defers l = true) (sets : op.sets l = setList (isPk l) l.cols r) :
    LandsPart l (o.defer (.maskedUpdate k r) {k}) T₀ (S.put k _ isRow) (carry l P op)
      (D \ pays l op ∪ owes l P op) := by
  obtain ⟨named, ⟨T, means, part, rfl⟩, rfl⟩ := lands
  have kept := kept_of_old from_
  refine ⟨named.defer rfl, ?_, ?_⟩
  · rw [Overlay.meaning_defer, means, carry_mask from_ onto defers]
    cases here : T k with
    | none => exact ⟨T, lenient_of_unfound here, part.put_absent here, rfl⟩
    | some r' =>
        obtain rfl : r' = cur := Option.some.inj ((part k r' here).symm.trans held)
        have found : ¬(ResidueOp.maskedUpdate k r).Unfound T :=
          fun gone => nomatch here.symm.trans gone
        have there : k ∈ T.present := fun none => nomatch here.symm.trans none
        refine ⟨_, (lenient_of_found found).trans (step_maskedUpdate here), part.put isRow, ?_⟩
        rw [present_put, Set.insert_eq_of_mem there]
  · rw [debt_defer, means, Except.toOption, missedOn_some]
    ext i
    have quiet : (setList (isPk l) l.cols r).isEmpty = true ↔ op.sets l = [] := by
      rw [sets, List.isEmpty_iff]
    simp [owes, pays, taken, missed, probed?, Unfound, Table.present, kept, from_, onto,
      defers, quiet]
    grind

/-- A row moves without all its cells, or is passed over. -/
theorem move (lands : LandsPart l o T₀ S P D) {j : Key} {cur : List Cell} (ne : k ≠ j)
    (held : S.rows j = some cur) (free : S.rows k = none) (fits : (ResidueOp.rekey j k r).Fits l)
    (isRow : l.IsRow k (patch r cur)) (from_ : op.oldKey? l = some j) (onto : op.newKey? l = some k)
    (defers : op.defers l = true) :
    LandsPart l (o.defer (.rekey j k r) {j, k}) T₀ ((S.erase j).put k _ isRow) (carry l P op)
      (D \ pays l op ∪ owes l P op) := by
  obtain ⟨named, ⟨T, means, part, rfl⟩, rfl⟩ := lands
  have kept := kept_of_old from_
  have free' : T k = none := part.free free
  have moves := ships_of_moves ne held fits isRow
  refine ⟨named.defer rfl, ?_, ?_⟩
  · rw [Overlay.meaning_defer, means]
    cases here : T j with
    | none =>
        have absent : j ∉ T.present := fun there => there here
        exact ⟨T, lenient_of_unfound ⟨here, free'⟩, (part.erase_absent here).put_absent free',
          (carry_passed from_ onto defers absent).symm⟩
    | some r' =>
        obtain rfl : r' = cur := Option.some.inj ((part j r' here).symm.trans held)
        have found : ¬(ResidueOp.rekey j k r).Unfound T :=
          fun gone => nomatch here.symm.trans gone.1
        have there : j ∈ T.present := fun none => nomatch here.symm.trans none
        refine ⟨_, (lenient_of_found found).trans (step_rekey here free'),
          (part.erase j).put isRow, ?_⟩
        rw [present_put, present_erase, carry_move from_ onto defers there]
  · rw [debt_defer, means, Except.toOption, missedOn_some]
    ext i
    simp [owes, pays, taken, missed, probed?, Unfound, Table.present, kept, from_, onto,
      defers, moves, free']
    grind

/-- How the rows that an overlay lands grow with an event. -/
theorem of_files (lands : LandsPart l o T₀ S P D) (files : Files S o op S' o') :
    LandsPart l o' T₀ S' (carry l P op) (D \ pays l op ∪ owes l P op) := by
  cases files with
  | @put row k isRow free =>
      have own : ∀ i, (StreamOp.insert row).oldKey? l = some i → i = k := nofun
      refine (lands.write isRow).congr (carry_put own isRow.key rfl).symm ?_
      rw [pays_put own isRow.key, owes_of_whole rfl, Set.sdiff_empty, Set.union_empty]
  | @rewrite old row full k r cur held isRow from_ onto whole =>
      have own i (is : (StreamOp.update old row full).oldKey? l = some i) : i = k :=
        Option.some.inj (is.symm.trans from_)
      refine (lands.write isRow).congr (carry_put own onto whole).symm ?_
      rw [pays_put own onto, owes_of_whole whole, Set.sdiff_empty, Set.union_empty]
  | replace ne held free isRow from_ onto whole =>
      refine ((lands.erase _).write isRow).congr (carry_replace from_ onto whole).symm ?_
      rw [pays_replace ne from_ onto, owes_of_whole whole, Set.union_empty]
  | mask held fits isRow from_ onto defers sets =>
      exact lands.mask held isRow from_ onto defers sets
  | move ne held free fits isRow from_ onto defers =>
      exact lands.move ne held free fits isRow from_ onto defers
  | erase held from_ =>
      refine (lands.erase _).congr (carry_erase from_ rfl).symm ?_
      rw [pays_erase from_ rfl, owes_of_whole rfl, Set.union_empty]
  | clear =>
      refine ⟨.clear, ⟨_, Overlay.meaning_clear, fun k r held => (by cases held), ?_⟩, ?_⟩
      · ext i
        simp [carry, Table.present]
      · ext i
        simp [owes, pays, defers, Apitap.debt, due, Overlay.clear, Overlay.empty]

/-- What a collapser without events lands. -/
theorem new {T : Table} (part : T.Part S) :
    LandsPart l (Collapser.new l).overlay T S T.present ∅ := by
  rw [Collapser.overlay_new]
  exact ⟨.empty, ⟨T, Overlay.meaning_empty, part, rfl⟩, rfl⟩

end LandsPart

theorem cleared_of_files {l : Layout} {o o' : Overlay Key (List Cell) ResidueOp}
    {S S' : SourceTable l}
    {op : StreamOp} (files : Files S o op S' o') : o'.cleared = true ↔ o.cleared = true ∨
    op = .truncate := by
  have write (o : Overlay Key (List Cell) ResidueOp) (k : Key) (v : List Cell) (op : ResidueOp) :
      (o.write k v op).cleared = o.cleared := by
    unfold Overlay.write
    split <;> rfl
  have erase (o : Overlay Key (List Cell) ResidueOp) (k : Key) (op : ResidueOp) :
      (o.erase k op).cleared = o.cleared := by
    unfold Overlay.erase
    split <;> rfl
  cases files <;> simp [write, erase, Overlay.defer, Overlay.stick, Overlay.clear]

/-- Landing a legal window on part of a table. -/
theorem Tracks.landAll_part {l : Layout} {T₀ T : Table} {c : Collapser} {S S' : SourceTable l}
    {seen P D : Set Key} {events : List (Nat × StreamOp)} (tracks : Tracks T₀ c S seen)
    (lands : LandsPart l c.overlay T S P D) (legal : S.run? (events.map Prod.snd) = some S') :
    ∃ c', c.landAll events = .ok c' ∧ c'.Sound ∧ c'.layout = l ∧
      LandsPart l c'.overlay T S' ((events.map Prod.snd).foldl (carry l) P)
        (due (carry l) (owes l) (pays l) P D (events.map Prod.snd)) ∧
      (c'.overlay.cleared = true ↔ c.overlay.cleared = true ∨ .truncate ∈ events.map Prod.snd) := by
  let holds o S ops := LandsPart l o T S (ops.foldl (carry l) P)
    (due (carry l) (owes l) (pays l) P D ops) ∧
      (o.cleared = true ↔ c.overlay.cleared = true ∨ .truncate ∈ ops)
  have first : holds c.overlay S [] := ⟨lands, by simp⟩
  have files : ∀ o S op S' o' ops, Files S o op S' o' → holds o S ops →
      holds o' S' (ops ++ [op]) := by
    rintro o S op S' o' ops files ⟨lands, cleared⟩
    refine ⟨?_, ?_⟩
    · rw [List.foldl_concat, due_concat]
      exact lands.of_files files
    · rw [cleared_of_files files, cleared, List.mem_append, List.mem_singleton, or_assoc,
        eq_comm (a := op)]
  obtain ⟨c', seen', landed, tracks', lands', cleared⟩ :=
    tracks.landAll_files holds files first legal
  exact ⟨c', landed, tracks'.sound, tracks'.layout, lands', cleared⟩

namespace DestMy

/-- A window applied to part of a table: refused when its tail is owed a row, and else
part of the source's table again. -/
theorem run_statements {c : Collapser} {T : Table} {S : SourceTable c.layout} {P D : Set Key}
    (sound : c.Sound) (keyed : T.Keyed c.layout) (lands : LandsPart c.layout c.overlay T S P D)
    (destTable : String) :
    let ran := (statements ⟨c.layout, c.finish, sound.rowsFit⟩).foldlM
      (fun T s => exec id c.layout destTable s T) T
    (D = ∅ → ∃ T' : Table, ran = .ok T' ∧ T'.Part S ∧ T'.present = P) ∧
      (D ≠ ∅ → ∃ kind key, ran = .error (missingRow destTable kind key)) := by
  intro ran
  obtain ⟨-, ⟨T', means, part, present⟩, owed⟩ := lands
  have ran_tail : ran = runTail c.layout destTable c.overlay.tail (c.overlay.base T) := by
    change List.foldlM _ T (statements _) = _
    rw [statements, List.foldlM_append, setStatements sound (.refl c.overlay) T]
    rfl
  have tail := judged_of_runOps_lenient sound.fits (sound.keyed_base keyed) means destTable
  rw [ran_tail]
  constructor
  · intro nothing
    exact ⟨T', tail.settled (settled_iff.mpr (owed.trans nothing)), part, present⟩
  · intro something
    exact tail.refused fun settled => something (owed.symm.trans (settled_iff.mp settled))

end DestMy

end Apitap
