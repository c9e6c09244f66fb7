import Apitap.Wire.ArrowStage

/-!
# The buffered Arrow plane

However a payload is cut into pieces, the builder holds the cells of the tuples that are whole so
far, keeps just the bytes behind them, and knows whether it is in a span. A piece is refused
where an element is malformed or a field does not decode, or at one of the builder's limits.
-/

namespace Apitap.Arrow

open Foundation
open Copy (fromBe fromBeInt)

variable {kinds : List ArrowKind} {rows : List (List CellVal)} {b b' b'' : BatchBuilder}
  {e : Stop Error} {ncols pos fin : Nat} {data x y z : Bytes}
  {ts us : List (List (Option Bytes))}

/-! ## Steps of a builder -/

/-- What a builder refuses whatever the stream is: a window past 4 GiB, a batch's column past
2 GiB, and text that is not UTF-8. -/
inductive Limit : Stop Error → Prop where
  | window : Limit (.err pastWindow)
  | offsets : Limit (.err pastOffsets)
  | text (i : Nat) : Limit (.err (BatchBuilder.notUtf8 i))

/-- A stream that is refused, or a limit. -/
def Refuses (kinds : List ArrowKind) (inSpan : Bool) (x : Bytes) (e : Stop Error) : Prop :=
  Limit e ∨ (spans kinds.length).Refused (Decodes kinds) inSpan x

/-- From a builder of some rows, by some elements, to one that holds their tuples too. -/
structure Advances (kinds : List ArrowKind) (rows : List (List CellVal)) (b : BatchBuilder)
    (x : Bytes) (ts : List (List (Option Bytes))) (b' : BatchBuilder) (y : Bytes) : Prop where
  reads : (spans kinds.length).Reads b.inSpan x ts b'.inSpan y
  holds : Holds kinds b' (rows ++ ts.map (rowOf kinds))
  decodes : ∀ fs ∈ ts, Decodes kinds fs

theorem Advances.refl (holds : Holds kinds b rows) (x : Bytes) :
    Advances kinds rows b x [] b x := by
  refine ⟨.done _ _, ?_, ?_⟩
  · rw [List.map_nil, List.append_nil]
    exact holds
  · intro fs mem
    cases mem

theorem Advances.trans (front : Advances kinds rows b x ts b' y)
    (back : Advances kinds (rows ++ ts.map (rowOf kinds)) b' y us b'' z) :
    Advances kinds rows b x (ts ++ us) b'' z := by
  refine ⟨front.reads.trans back.reads, ?_, ?_⟩
  · rw [List.map_append, ← List.append_assoc]
    exact back.holds
  · exact List.forall_mem_append.mpr ⟨front.decodes, back.decodes⟩

/-- Behind a longer word there is more left. -/
theorem Advances.append (advances : Advances kinds rows b x ts b' y) (z : Bytes) :
    Advances kinds rows b (x ++ z) ts b' (y ++ z) :=
  ⟨advances.reads.append z, advances.holds, advances.decodes⟩

/-- What is kept for later and what is left of a message are beside the point. -/
theorem Advances.framed (advances : Advances kinds rows b x ts b' y) (buf : Bytes)
    (frLeft : Nat) : Advances kinds rows b x ts { b' with buf := buf, frLeft := frLeft } y :=
  ⟨advances.reads, advances.holds.framed buf b'.inSpan frLeft, advances.decodes⟩

theorem Refuses.behind (refuses : Refuses kinds b'.inSpan y e)
    (advances : Advances kinds rows b x ts b' y) : Refuses kinds b.inSpan x e :=
  refuses.imp_right fun refused => refused.behind advances.reads

theorem Refuses.append {inSpan : Bool} (refuses : Refuses kinds inSpan x e) (z : Bytes) :
    Refuses kinds inSpan (x ++ z) e :=
  refuses.imp_right fun refused => refused.append z

theorem refuses_next {inSpan : Bool} (wrong : (spans kinds.length).next inSpan x = .error e) :
    Refuses kinds inSpan x e :=
  .inr ⟨[], inSpan, x, .done _ _, .inl ⟨e, wrong⟩⟩

/-! ## Staged tuples -/

/-- Some tuples are staged in the data: those at its front, in their order. -/
structure StagedAs (ncols : Nat) (data : Bytes) (more : List Staged) (x : Bytes)
    (ts : List (List (Option Bytes))) (y : Bytes) : Prop where
  bytes : (more.mapM fun row => List.mapM (readField data) row) = .ok ts
  reads : (spans ncols).Reads true x ts true y

theorem StagedAs.nil (x : Bytes) : StagedAs ncols data [] x [] x := ⟨rfl, .done _ _⟩

theorem StagedAs.cons {row : Staged} {more : List Staged} {fs : List (Option Bytes)} {n : Nat}
    (first : (spans ncols).next true x = .ok (some (n, true, some fs)))
    (read : List.mapM (readField data) row = .ok fs)
    (rest : StagedAs ncols data more (x.drop n) ts y) :
    StagedAs ncols data (row :: more) x (fs :: ts) y :=
  ⟨mapM_cons_ok.mpr ⟨_, _, read, rest.bytes, rfl⟩, .more first rest.reads⟩

theorem stageTuples_cases (ncols k : Nat) (staged : List Staged) (inside : pos ≤ data.length) :
    (∀ e, stageTuples ncols data k pos staged = .error e → e = .err pastWindow ∨
      ∃ ts c, (spans ncols).Reads true (data.drop pos) ts true c ∧
        ∃ e, (spans ncols).next true c = .error e) ∧
      ∀ all fin stop, stageTuples ncols data k pos staged = .ok (all, fin, stop) →
        pos ≤ fin ∧ fin ≤ data.length ∧
        (∃ more ts, all = staged ++ more ∧
          StagedAs ncols data more (data.drop pos) ts (data.drop fin)) ∧
        (stop = .full → 0 < k → pos < fin) ∧
        (stop = .incomplete → (spans ncols).next true (data.drop fin) = .ok none) ∧
        (stop = .trailer → fin + 2 ≤ data.length ∧
          (spans ncols).next true (data.drop fin) = .ok (some (2, false, none))) := by
  induction k generalizing pos staged with
  | zero =>
      refine ⟨fun e wrong => (by cases wrong), ?_⟩
      intro all fin stop is
      cases is
      exact ⟨Nat.le_refl _, inside, ⟨[], [], (List.append_nil _).symm, .nil _⟩,
        fun _ none => absurd none (Nat.lt_irrefl 0), StageStop.noConfusion, StageStop.noConfusion⟩
  | succ k ih =>
      obtain ⟨refuses, short, last, whole⟩ :=
        stageOne_cases ncols pos (Nat.le_refl data.length) inside
      rw [List.take_length] at refuses short last whole
      rw [stageTuples]
      cases one : stageOne ncols data data.length pos with
      | error e =>
          refine ⟨?_, ?_⟩
          · intro e' wrong
            cases wrong
            apply (refuses e one).imp_right
            intro wrong
            exact ⟨[], _, .done _ _, e, wrong⟩
          · intro all fin stop is
            cases is
      | ok found =>
          match found, one with
          | none, one =>
              refine ⟨fun e wrong => (by cases wrong), ?_⟩
              intro all fin stop is
              cases is
              exact ⟨Nat.le_refl _, inside, ⟨[], [], (List.append_nil _).symm, .nil _⟩,
                StageStop.noConfusion, fun _ => short one, StageStop.noConfusion⟩
          | some none, one =>
              refine ⟨fun e wrong => (by cases wrong), ?_⟩
              intro all fin stop is
              cases is
              exact ⟨Nat.le_refl _, inside, ⟨[], [], (List.append_nil _).symm, .nil _⟩,
                StageStop.noConfusion, StageStop.noConfusion, fun _ => last one⟩
          | some (some (row, o)), one =>
              obtain ⟨from_, upto, fs, first, read⟩ := whole row o one
              have drops : (data.drop pos).drop (o - pos) = data.drop o := by
                rw [List.drop_drop, Nat.add_sub_cancel' (by omega)]
              obtain ⟨later_refuses, later⟩ := ih (staged ++ [row]) upto
              refine ⟨?_, ?_⟩
              · intro e wrong
                apply (later_refuses e wrong).imp_right
                rintro ⟨ts, c, reads, wrong⟩
                refine ⟨fs :: ts, c, .more first ?_, wrong⟩
                rw [drops]
                exact reads
              · intro all fin stop is
                obtain ⟨le, le', ⟨more, ts, all_is, staged_as⟩, -, incomplete, trailer⟩ :=
                  later all fin stop is
                rw [← drops] at staged_as
                exact ⟨by omega, le', ⟨row :: more, fs :: ts,
                  by rw [all_is, List.append_assoc]; rfl, staged_as.cons first read⟩,
                  fun _ _ => by omega, incomplete, trailer⟩

/-- What is staged of some data goes into the builder. -/
theorem decodeAt_cases {more : List Staged} (holds : Holds kinds b rows) (within : b.inSpan = true)
    (staged : StagedAs kinds.length data more x ts y) :
    (∀ b', b.decodeAt data more = .ok b' → SameFrame b b' ∧
      Advances kinds rows b x ts b' y) ∧
      ∀ e, b.decodeAt data more = .error e → Refuses kinds b.inSpan x e := by
  have reads : (spans kinds.length).Reads b.inSpan x ts true y := within ▸ staged.reads
  rw [BatchBuilder.decodeAt]
  split
  · rename_i none
    subst none
    obtain rfl : [] = ts := Except.ok.inj staged.bytes
    refine ⟨?_, fun e wrong => (by cases wrong)⟩
    intro b' is
    cases is
    refine ⟨⟨rfl, rfl, rfl, rfl, rfl⟩, within.symm ▸ reads, ?_, ?_⟩
    · rw [List.map_nil, List.append_nil]
      exact holds
    · intro fs mem
      cases mem
  · rw [staged.bytes, Stop.ok_bind]
    refine ⟨?_, ?_⟩
    · intro b' is
      obtain ⟨frame, holds, decodes⟩ := holds.decodes.1 b' is
      have in_ : b'.inSpan = true := frame.inSpan.trans within
      exact ⟨frame, in_.symm ▸ reads, holds, decodes⟩
    · intro e wrong
      obtain rfl | ⟨fs, mem, bad⟩ := holds.decodes.2 e wrong
      · exact .inl .offsets
      · exact .inr ⟨ts, true, y, reads, .inr ⟨fs, mem, bad⟩⟩

/-! ## The walk -/

/-- Into a span, if its header is whole. -/
theorem enter_cases (holds : Holds kinds b rows) (inside : pos ≤ data.length) :
    (∀ e, b.enter data pos = .error e → Refuses kinds b.inSpan (data.drop pos) e) ∧
      (b.enter data pos = .ok none →
        (spans kinds.length).next b.inSpan (data.drop pos) = .ok none) ∧
      ∀ b' o, b.enter data pos = .ok (some (b', o)) →
        b' = { b with inSpan := true } ∧ pos ≤ o ∧ o ≤ data.length ∧
          Advances kinds rows b (data.drop pos) [] b' (data.drop o) := by
  rw [BatchBuilder.enter]
  cases in_ : b.inSpan with
  | true =>
      rw [if_pos rfl]
      refine ⟨fun e wrong => (by cases wrong), fun none => (by cases none), ?_⟩
      intro b' o is
      cases is
      have same : b = { b with inSpan := true } := by rw [← in_]
      exact ⟨same, Nat.le_refl _, inside, .refl holds _⟩
  | false =>
      rw [if_neg Bool.false_ne_true]
      refine ⟨?_, ?_, ?_⟩
      · intro e wrong
        apply refuses_next
        exact map_eq_error.mpr (map_eq_error.mp wrong)
      · intro none
        exact optionMap_none.mpr (optionMap_none.mp none)
      · intro b' o is
        obtain ⟨k, found, same⟩ := optionMap_ok.mp is
        cases same
        have first : (spans kinds.length).next false (data.drop pos) = .ok (some (k, true, none)) :=
          optionMap_ok.mpr ⟨k, found, rfl⟩
        have le := ((spans kinds.length).next_le first).2
        rw [List.length_drop] at le
        have reads := Elements.Reads.one first
        rw [List.drop_drop] at reads
        refine ⟨rfl, Nat.le_add_right _ _, by omega, in_ ▸ reads, ?_, ?_⟩
        · rw [List.map_nil, List.append_nil]
          exact holds.framed b.buf true b.frLeft
        · intro fs mem
          cases mem

/-- Out of a span, behind its trailer. -/
theorem Advances.closing (holds : Holds kinds b rows) (within : b.inSpan = true)
    (last : (spans kinds.length).next true x = .ok (some (2, false, none))) (frLeft : Nat) :
    Advances kinds rows b x [] { b with inSpan := false, frLeft := frLeft } (x.drop 2) := by
  refine ⟨within.symm ▸ Elements.Reads.one last, ?_, ?_⟩
  · rw [List.map_nil, List.append_nil]
    exact holds.framed b.buf false frLeft
  · intro fs mem
    cases mem

/-- Tuples at a place of the data, in the builder. -/
theorem stage_cases (holds : Holds kinds b rows) (within : b.inSpan = true)
    (inside : pos ≤ data.length) :
    (∀ e, b.stage data pos = .error e → Refuses kinds b.inSpan (data.drop pos) e) ∧
      ∀ b' fin stop, b.stage data pos = .ok (b', fin, stop) →
        pos ≤ fin ∧ fin ≤ data.length ∧ SameFrame b b' ∧
        (∃ ts, Advances kinds rows b (data.drop pos) ts b' (data.drop fin)) ∧
        (stop = .full → pos < fin) ∧
        (stop = .incomplete → (spans kinds.length).next true (data.drop fin) = .ok none) ∧
        (stop = .trailer → fin + 2 ≤ data.length ∧
          (spans kinds.length).next true (data.drop fin) = .ok (some (2, false, none))) := by
  obtain ⟨refuses, stages⟩ := stageTuples_cases kinds.length stK [] inside
  rw [BatchBuilder.stage, holds.cols]
  constructor
  · intro e wrong
    obtain wrong | ⟨⟨all, fin, stop⟩, staged, wrong⟩ := bind_eq_error.mp wrong
    · obtain rfl | ⟨ts, c, reads, bad⟩ := refuses e wrong
      · exact .inl .window
      · exact .inr ⟨ts, true, c, within ▸ reads, .inl bad⟩
    · obtain ⟨-, -, ⟨more, ts, rfl, staged_as⟩, -⟩ := stages all fin stop staged
      exact (decodeAt_cases holds within staged_as).2 e (map_eq_error.mp wrong)
  · intro b' fin stop is
    obtain ⟨⟨all, fin', stop'⟩, staged, is⟩ := bind_eq_ok.mp is
    obtain ⟨b₁, decoded, same⟩ := map_eq_ok.mp is
    cases same
    obtain ⟨le, le', ⟨more, ts, rfl, staged_as⟩, full, incomplete, trailer⟩ :=
      stages all fin stop staged
    obtain ⟨frame, advances⟩ := (decodeAt_cases holds within staged_as).1 b' decoded
    exact ⟨le, le', frame, ⟨ts, advances⟩, fun is => full is (by decide), incomplete, trailer⟩

theorem walkFrom_cases {fuel : Nat} (holds : Holds kinds b rows) (inside : pos ≤ data.length)
    (enough : data.length - pos < fuel) :
    (∀ e, b.walkFrom data fuel pos = .error e → Refuses kinds b.inSpan (data.drop pos) e) ∧
      ∀ b' fin, b.walkFrom data fuel pos = .ok (b', fin) → fin ≤ data.length ∧
        b'.buf = b.buf ∧ b'.frLeft = b.frLeft ∧
        (spans kinds.length).next b'.inSpan (data.drop fin) = .ok none ∧
          ∃ ts, Advances kinds rows b (data.drop pos) ts b' (data.drop fin) := by
  induction fuel generalizing pos b rows with
  | zero => exact absurd enough (Nat.not_lt_zero _)
  | succ fuel ih =>
      obtain ⟨refuses, short, enters⟩ := enter_cases holds inside
      rw [BatchBuilder.walkFrom]
      cases entered : b.enter data pos with
      | error e =>
          refine ⟨?_, fun b' fin is => (by cases is)⟩
          intro e' wrong
          cases wrong
          exact refuses e entered
      | ok found =>
          match found, entered with
          | none, entered =>
              refine ⟨fun e wrong => (by cases wrong), ?_⟩
              intro b' fin is
              cases is
              exact ⟨inside, rfl, rfl, short entered, [], .refl holds _⟩
          | some (b₁, o), entered =>
              obtain ⟨b₁_is, from_, upto, entering⟩ := enters b₁ o entered
              have in_ : b₁.inSpan = true := by rw [b₁_is]
              have buf : b₁.buf = b.buf := by rw [b₁_is]
              have frLeft : b₁.frLeft = b.frLeft := by rw [b₁_is]
              obtain ⟨stage_refuses, stages⟩ := stage_cases entering.holds in_ upto
              dsimp only
              cases staged : b₁.stage data o with
              | error e =>
                  refine ⟨?_, fun b' fin is => (by cases is)⟩
                  intro e' wrong
                  cases wrong
                  exact (stage_refuses e staged).behind entering
              | ok found =>
                  obtain ⟨b₂, o₂, stop⟩ := found
                  obtain ⟨le, le', frame, ⟨ts, staging⟩, full, incomplete, trailer⟩ :=
                    stages b₂ o₂ stop staged
                  have in₂ : b₂.inSpan = true := frame.inSpan.trans in_
                  have upto₂ := entering.trans staging
                  -- Behind a round that took something the rest is a walk of its own.
                  have goes_on (b₃ : BatchBuilder) (o₃ : Nat) (us : List (List (Option Bytes)))
                      (same : b₃.buf = b₂.buf) (left : b₃.frLeft = b₂.frLeft) (on : o < o₃)
                      (room : o₃ ≤ data.length)
                      (before : Advances kinds rows b (data.drop pos) us b₃ (data.drop o₃)) :
                      (∀ e, b₃.walkFrom data fuel o₃ = .error e →
                        Refuses kinds b.inSpan (data.drop pos) e) ∧
                        ∀ b' fin, b₃.walkFrom data fuel o₃ = .ok (b', fin) → fin ≤ data.length ∧
                          b'.buf = b.buf ∧ b'.frLeft = b.frLeft ∧
                          (spans kinds.length).next b'.inSpan (data.drop fin) = .ok none ∧
                            ∃ ts, Advances kinds rows b (data.drop pos) ts b' (data.drop fin) := by
                    obtain ⟨later_refuses, later⟩ := ih before.holds room (by omega)
                    constructor
                    · intro e wrong
                      exact (later_refuses e wrong).behind before
                    · intro b' fin is
                      obtain ⟨within, buf', left', stuck, vs, rest⟩ := later b' fin is
                      refine ⟨within, ?_, ?_, stuck, _, before.trans rest⟩
                      · rw [buf', same, frame.buf, buf]
                      · rw [left', left, frame.frLeft, frLeft]
                  match stop, full, incomplete, trailer with
                  | .full, full, _, _ =>
                      exact goes_on b₂ o₂ _ rfl rfl (full rfl) le' upto₂
                  | .incomplete, _, incomplete, _ =>
                      refine ⟨fun e wrong => (by cases wrong), ?_⟩
                      intro b' fin is
                      cases is
                      refine ⟨le', frame.buf.trans buf, frame.frLeft.trans frLeft, ?_, _, upto₂⟩
                      rw [in₂]
                      exact incomplete rfl
                  | .trailer, _, _, trailer =>
                      obtain ⟨room, last⟩ := trailer rfl
                      have closing := Advances.closing upto₂.holds in₂ last b₂.frLeft
                      rw [List.drop_drop] at closing
                      exact goes_on _ (o₂ + 2) _ rfl rfl (by omega) room (upto₂.trans closing)

theorem walk_cases (holds : Holds kinds b rows) (data : Bytes) :
    (∀ e, b.walk data = .error e → Refuses kinds b.inSpan data e) ∧
      ∀ b' fin, b.walk data = .ok (b', fin) → fin ≤ data.length ∧
        b'.buf = b.buf ∧ b'.frLeft = b.frLeft ∧
        (spans kinds.length).next b'.inSpan (data.drop fin) = .ok none ∧
          ∃ ts, Advances kinds rows b data ts b' (data.drop fin) :=
  walkFrom_cases holds (Nat.zero_le _) (Nat.lt_succ_self _)

/-! ## Pieces -/

/-- There is nothing whole in what a builder keeps. -/
def Stuck (kinds : List ArrowKind) (b : BatchBuilder) : Prop :=
  (spans kinds.length).next b.inSpan b.buf = .ok none

theorem next_nil (n : Nat) (inSpan : Bool) : (spans n).next inSpan [] = .ok none := by
  cases inSpan <;> rfl

/-- One bite of a chunk, behind the tail that is kept. -/
theorem bite_cases (holds : Holds kinds b rows) (bite : Bytes) :
    (∀ e, { b with buf := [] }.walk (b.buf ++ bite) = .error e →
      Refuses kinds b.inSpan (b.buf ++ bite) e) ∧
      ∀ b' fin, { b with buf := [] }.walk (b.buf ++ bite) = .ok (b', fin) →
        b'.buf = [] ∧ b'.frLeft = b.frLeft ∧
        (spans kinds.length).next b'.inSpan ((b.buf ++ bite).drop fin) = .ok none ∧
          ∃ ts, Advances kinds rows b (b.buf ++ bite) ts b' ((b.buf ++ bite).drop fin) := by
  have emptied := holds.framed [] b.inSpan b.frLeft
  obtain ⟨refuses, walks⟩ := walk_cases emptied (b.buf ++ bite)
  refine ⟨refuses, ?_⟩
  intro b' fin is
  obtain ⟨-, buf, frLeft, stuck, ts, advances⟩ := walks b' fin is
  exact ⟨buf, frLeft, stuck, ts, advances.reads, advances.holds, advances.decodes⟩

theorem topUp_cases {fuel bite : Nat} {rest : Bytes} (holds : Holds kinds b rows)
    (stuck : Stuck kinds b) (positive : 0 < bite) (enough : rest.length < fuel) :
    (∀ e, b.topUp fuel bite rest = .error e → Refuses kinds b.inSpan (b.buf ++ rest) e) ∧
      ∀ b' rest', b.topUp fuel bite rest = .ok (b', rest') →
        (b'.buf = [] ∨ rest' = []) ∧ b'.frLeft = b.frLeft ∧ Stuck kinds b' ∧
          ∃ ts, Advances kinds rows b (b.buf ++ rest) ts b' (b'.buf ++ rest') := by
  induction fuel generalizing b rows bite rest with
  | zero => exact absurd enough (Nat.not_lt_zero _)
  | succ fuel ih =>
      rw [BatchBuilder.topUp]
      by_cases over_ : b.buf = [] ∨ rest = []
      · rw [if_pos over_]
        refine ⟨fun e wrong => (by cases wrong), ?_⟩
        intro b' rest' is
        cases is
        exact ⟨over_, rfl, stuck, [], .refl holds _⟩
      · rw [if_neg over_]
        dsimp only
        have some : rest ≠ [] := fun none => over_ (.inr none)
        have len := List.length_pos_of_ne_nil some
        generalize take_is : min rest.length bite = take
        have took : 0 < take ∧ take ≤ rest.length := by omega
        have whole : b.buf ++ rest = (b.buf ++ rest.take take) ++ rest.drop take := by
          rw [List.append_assoc, List.take_append_drop]
        obtain ⟨refuses, walks⟩ := bite_cases holds (rest.take take)
        rw [whole]
        cases walked : { b with buf := [] }.walk (b.buf ++ rest.take take) with
        | error e =>
            refine ⟨?_, fun b' rest' is => (by cases is)⟩
            intro e' wrong
            cases wrong
            exact (refuses e walked).append _
        | ok found =>
            obtain ⟨b₁, fin⟩ := found
            obtain ⟨buf, frLeft, stuck₁, ts, advances⟩ := walks b₁ fin walked
            rw [Stop.ok_bind]
            dsimp only
            split
            · rename_i all
              refine ⟨fun e wrong => (by cases wrong), ?_⟩
              intro b' rest' is
              cases is
              refine ⟨.inl rfl, frLeft, next_nil _ _, ts, ?_⟩
              have done := (advances.append (rest.drop take)).framed [] b₁.frLeft
              rw [all, List.drop_length] at done
              exact done
            · have kept := advances.framed ((b.buf ++ rest.take take).drop fin) b₁.frLeft
              have less : (rest.drop take).length < fuel := by
                rw [List.length_drop]
                omega
              have wider : 0 < min (bite * 2) (64 <<< 20) := by omega
              obtain ⟨later_refuses, later⟩ := ih kept.holds stuck₁ wider less
              have before := kept.append (rest.drop take)
              refine ⟨?_, ?_⟩
              · intro e wrong
                exact (later_refuses e wrong).behind before
              · intro b' rest' is
                obtain ⟨over_, left, stuck', us, more⟩ := later b' rest' is
                exact ⟨over_, left.trans frLeft, stuck', _, before.trans more⟩

/-- What a piece does to the builder: the tuples that are whole by now, and the bytes behind
them. -/
theorem push_cases (holds : Holds kinds b rows) (stuck : Stuck kinds b) (chunk : Bytes) :
    (∀ e, b.push chunk = .error e → Refuses kinds b.inSpan (b.buf ++ chunk) e) ∧
      ∀ b', b.push chunk = .ok b' → b'.frLeft = b.frLeft ∧ Stuck kinds b' ∧
        ∃ ts, Advances kinds rows b (b.buf ++ chunk) ts b' b'.buf := by
  obtain ⟨refuses, tops⟩ := topUp_cases holds stuck (show 0 < 16 <<< 10 by decide)
    (Nat.lt_succ_self chunk.length)
  rw [BatchBuilder.push]
  cases topped : b.topUp (chunk.length + 1) (16 <<< 10) chunk with
  | error e =>
      refine ⟨?_, fun b' is => (by cases is)⟩
      intro e' wrong
      cases wrong
      exact refuses e topped
  | ok found =>
      obtain ⟨b₁, rest⟩ := found
      obtain ⟨over_, frLeft, stuck₁, ts, before⟩ := tops b₁ rest topped
      rw [Stop.ok_bind]
      dsimp only
      split
      · rename_i none
        subst none
        rw [List.append_nil] at before
        refine ⟨fun e wrong => (by cases wrong), ?_⟩
        intro b' is
        cases is
        exact ⟨frLeft, stuck₁, ts, before⟩
      · rename_i some
        have empty : b₁.buf = [] := over_.resolve_right some
        rw [empty, List.nil_append] at before
        obtain ⟨walk_refuses, walks⟩ := walk_cases before.holds rest
        refine ⟨?_, ?_⟩
        · intro e wrong
          exact (walk_refuses e (map_eq_error.mp wrong)).behind before
        · intro b' is
          obtain ⟨⟨b₂, fin⟩, walked, same⟩ := map_eq_ok.mp is
          cases same
          obtain ⟨-, buf, left, stuck₂, us, advances⟩ := walks b₂ fin walked
          rw [buf, empty, List.nil_append]
          exact ⟨left.trans frLeft, stuck₂, _, before.trans (advances.framed _ b₂.frLeft)⟩

end Apitap.Arrow
