import Apitap.Pipeline.AppendExact

/-!
# Append lands each row once

Whatever the sources commit meanwhile, wherever runs die and however runs of one source
overlap, the table holds a source's rows up to its stored watermark, each once, and
nothing of it above.
-/

namespace Apitap.Append

open Guard (Name Token peerBlocks)

variable {κ : Type} {F : Fleet κ} {c : Cursor κ} {s : String} {d : Db κ} {w w' : World κ} {v : κ}

/-! ## Runs of one source -/

def Phase.past : Phase κ → Bool
  | .passed _ | .staged _ | .relooking .. | .confirmed _ | .loading .. => true
  | _ => false

section apart

variable {σ τ : Token} {p q : Phase κ} {objects objects' : List Name}

/-- Two runs of one source: of two that list, one listed the other's lock; one that
listed sees the other past its check by its lock or by its staging; and two are never
past their checks together. -/
structure Apart (F : Fleet κ) (objects : List Name) (σ τ : Token) (p q : Phase κ) : Prop where
  both : ∀ plan plan' ls ms, p = .scanning plan ls → q = .scanning plan' ms →
    F.lock τ ∈ ls ∨ F.lock σ ∈ ms
  sees : ∀ plan ls, p = .scanning plan ls → q.past = true → F.lock τ ∈ ls ∨ F.staging τ ∈ objects
  seen : ∀ plan ms, q = .scanning plan ms → p.past = true → F.lock σ ∈ ms ∨ F.staging σ ∈ objects
  never : ¬ (p.past = true ∧ q.past = true)

theorem Apart.symm (apart : Apart F objects σ τ p q) : Apart F objects τ σ q p :=
  ⟨fun plan plan' ls ms at_q at_p => (apart.both plan' plan ms ls at_p at_q).symm, apart.seen,
    apart.sees, fun past => apart.never past.symm⟩

theorem Apart.kept (apart : Apart F objects σ τ p q)
    (kept : ∀ n, n.token = some σ ∨ n.token = some τ → n ∈ objects → n ∈ objects') :
    Apart F objects' σ τ p q :=
  { apart with
    sees := fun plan ls at_p past => (apart.sees plan ls at_p past).imp id (kept _ (.inr rfl))
    seen := fun plan ms at_q past => (apart.seen plan ms at_q past).imp id (kept _ (.inl rfl)) }

/-- A run that neither lists nor is past its check is no concern of another. -/
theorem Apart.quiet (before : q.past = false) (idle : ∀ plan ls, q ≠ .scanning plan ls) :
    Apart F objects σ τ p q := by
  refine ⟨fun _ plan' _ ms _ at_q => absurd at_q (idle plan' ms), fun _ _ _ past => ?_,
    fun plan ms at_q => absurd at_q (idle plan ms), fun past => ?_⟩
  · rw [before] at past
    nomatch past
  · rw [before] at past
    nomatch past.2

/-- A run past its check stays apart while its staging stands. -/
theorem Apart.stay (apart : Apart F objects σ τ p q) (here : q.past = true) {q' : Phase κ}
    (past : q'.past = true) (staging : F.staging τ ∈ objects') : Apart F objects' σ τ p q' := by
  have alone : ¬ p.past = true := fun other => apart.never ⟨other, here⟩
  refine ⟨fun _ plan' _ ms _ at_q => ?_, fun _ _ _ _ => .inr staging, fun plan ms at_q => ?_,
    fun both => alone both.1⟩
  · subst at_q
    nomatch past
  · subst at_q
    nomatch past

/-- A name of a run of the same source blocks. -/
theorem blockers_ne_nil_of_same_source {n : Name} {listed : List Name} (σ_mints : F.Mints σ)
    (τ_mints : F.Mints τ)
    (ne : σ ≠ τ) (same : F.source σ = F.source τ) (mem : n ∈ listed) (here : n.table = F.table)
    (kind : n.artifact ∈ [.lock, .staging]) (token : n.token = some σ) :
    (Guard.blockers F.table ⟨τ, none⟩ [.lock, .staging] listed).blockers ≠ [] := by
  have conflict : peerBlocks τ σ = true := by
    rw [peerBlocks, τ_mints.1, σ_mints.1]
    exact decide_eq_true (by rw [τ_mints.2, σ_mints.2, same])
  intro free
  let run : Guard.RunId := ⟨τ, none⟩
  have other : run.token ≠ σ := ne.symm
  have stands := Guard.blocks_of_listed mem here kind token other nofun conflict
  rw [free] at stands
  nomatch stands

/-- Objects that are not the run's own stay when it makes or drops one. -/
theorem mem_created {n m : Name} (mem : n ∈ objects) : n ∈ objects ++ [m] :=
  List.mem_append_left _ mem

theorem mem_dropped {n m : Name} (own : m.token = some τ) (other : n.token ≠ some τ)
    (mem : n ∈ objects) : n ∈ objects.filter (· ≠ m) :=
  List.mem_filter.mpr ⟨mem, decide_eq_true fun is => other (is ▸ own)⟩

theorem mem_new {n : Name} : n ∈ objects ++ [n] :=
  List.mem_append_right _ (List.mem_singleton.mpr rfl)

/-- Dropping the lock leaves the staging. -/
theorem staging_kept (mem : F.staging τ ∈ objects) : F.staging τ ∈ objects.filter (· ≠ F.lock τ) :=
  List.mem_filter.mpr ⟨mem, decide_eq_true fun is => nomatch congrArg Name.artifact is⟩

end apart

variable [LinearOrder κ]

/-! ## What a run knows -/

/-- An earlier state of the destination, as a run of this source past its check has
seen it. -/
structure Since (F : Fleet κ) (s : String) (w : World κ) (d : Db κ) : Prop where
  own : d.ownRow F.destKey s = w.db.ownRow F.destKey s
  held : ∀ x, d.held s x = w.db.held s x
  rows : d.rows ≠ [] → w.db.rows ≠ []
  lone : Lone F s → d.rows = w.db.rows ∧ d.stateRows F.destKey = w.db.stateRows F.destKey
  settled : d.stateRows F.destKey = 0 → d.rows ≠ [] → Lone F s

/-- The queries of a run's second look, in order. -/
structure Looks (F : Fleet κ) (s : String) (w : World κ) (seen : List (Db κ)) : Prop where
  there : ∀ d ∈ seen, d.final.isSome
  since : ∀ d ∈ seen, Since F s w d
  ordered : seen.Pairwise fun d d' => d.rows ≠ [] → d'.rows ≠ []

/-- A plan goes with the table it was made for. -/
structure Built (F : Fleet κ) (w : World κ) (plan : Plan) : Prop where
  mode : plan.mode = .replace ∨ plan.mode = .append
  first : plan.mode = .replace → plan.delta = none
  there : plan.mode = .append → w.db.final.isSome
  delta : plan.mode = .append → plan.delta = plan.watermark.map fun wm =>
    ⟨F.cursor.col, ">", if F.cursor.quoted then F.cursor.cursorLiteral wm else wm⟩

/-- The table stands where the plan's delta starts. -/
def Bounded (F : Fleet κ) (s : String) (w : World κ) (plan : Plan) : Prop :=
  match plan.watermark with
  | none => ∀ x, w.db.held s x = 0
  | some wm => ∃ v, wm = F.cursor.text v ∧ UpTo F w s v

/-- What holds of a run at each phase. -/
def Phase.Holds (F : Fleet κ) (w : World κ) (τ : Token) : Phase κ → Prop
  | .idle | .ceased => True
  | .looking seen => F.Mints τ ∧ ∀ d ∈ seen, d.final.isSome → w.db.final.isSome
  | .planned plan => F.Mints τ ∧ Built F w plan
  | .locked plan | .scanning plan _ | .passed plan =>
      F.Mints τ ∧ Built F w plan ∧ F.lock τ ∈ w.db.objects
  | .staged plan => F.Mints τ ∧ Built F w plan ∧ F.staging τ ∈ w.db.objects
  | .relooking plan seen => F.Mints τ ∧ Built F w plan ∧ F.staging τ ∈ w.db.objects ∧
      (plan.mode = .append → Looks F (F.source τ) w seen)
  | .confirmed plan => F.Mints τ ∧ Built F w plan ∧ F.staging τ ∈ w.db.objects ∧
      (plan.mode = .append → Bounded F (F.source τ) w plan)
  | .loading plan left rows => F.Mints τ ∧ Built F w plan ∧ F.staging τ ∈ w.db.objects ∧
      (plan.mode = .append → Bounded F (F.source τ) w plan) ∧
      ∃ pre, Read (w.log (F.source τ)) (plan.admits F.cursor) left rows pre

omit [LinearOrder κ] in
theorem Built.grown {plan : Plan} (built : Built F w plan)
    (final : w.db.final.isSome → w'.db.final.isSome) : Built F w' plan :=
  { built with there := fun append => final (built.there append) }

theorem Bounded.around {plan : Plan} (bounded : Bounded F s w plan) (around : Around F s w w') :
    Bounded F s w' plan := by
  unfold Bounded at *
  split at *
  · exact fun x => (around.held x).trans (bounded x)
  · exact bounded.imp fun v ⟨text, up⟩ => ⟨text, up.around around⟩

theorem Since.around (since : Since F s w d) (there : w.db.final.isSome)
    (around : Around F s w w') :
    Since F s w' d where
  own := since.own.trans (around.own there).symm
  held x := (since.held x).trans (around.held x).symm
  rows some_there := around.rows (since.rows some_there)
  lone lone := ⟨(since.lone lone).1.trans (around.lone lone).1.symm,
    (since.lone lone).2.trans (around.lone lone).2.symm⟩
  settled := since.settled

theorem Looks.around {seen : List (Db κ)} (looks : Looks F s w seen) (there : w.db.final.isSome)
    (around : Around F s w w') : Looks F s w' seen :=
  ⟨looks.there, fun d mem => (looks.since d mem).around there around, looks.ordered⟩

theorem Read.grown {log log' pre : List κ} {low : κ → Bool} {left : Statements κ} {rows : List κ}
    (read : Read log low left rows pre) (grown : log <+: log') : Read log' low left rows pre :=
  { read with sofar := read.sofar.trans grown }

/-- What others may do leaves what a run knows, when they leave its source alone once it
is past its check. -/
theorem Phase.Holds.around {τ : Token} {p : Phase κ} (holds : p.Holds F w τ)
    (final : w.db.final.isSome → w'.db.final.isSome)
    (objects : ∀ n, n.token = some τ → n ∈ w.db.objects → n ∈ w'.db.objects)
    (around : p.past = true → Around F (F.source τ) w w') : p.Holds F w' τ := by
  cases p with
  | idle | ceased => trivial
  | looking seen => exact ⟨holds.1, fun d mem there => final (holds.2 d mem there)⟩
  | planned plan => exact ⟨holds.1, holds.2.grown final⟩
  | locked plan | scanning plan locks | passed plan =>
      exact ⟨holds.1, holds.2.1.grown final, objects _ rfl holds.2.2⟩
  | staged plan => exact ⟨holds.1, holds.2.1.grown final, objects _ rfl holds.2.2⟩
  | relooking plan seen =>
      obtain ⟨mints, built, staging, looks⟩ := holds
      exact ⟨mints, built.grown final, objects _ rfl staging, fun append =>
        (looks append).around (built.there append) (around rfl)⟩
  | confirmed plan =>
      obtain ⟨mints, built, staging, bounded⟩ := holds
      exact ⟨mints, built.grown final, objects _ rfl staging, fun append =>
        (bounded append).around (around rfl)⟩
  | loading plan left rows =>
      obtain ⟨mints, built, staging, bounded, pre, read⟩ := holds
      exact ⟨mints, built.grown final, objects _ rfl staging, fun append =>
        (bounded append).around (around rfl), pre, read.grown (around rfl).grown⟩

/-- The delta asks for what is above the bound. -/
theorem Built.admits {plan : Plan} (built : Built F w plan) (append : plan.mode = .append)
    (marked : plan.watermark = some (F.cursor.text v)) (x : κ) :
    plan.admits F.cursor x = decide (v < x) := by
  rw [Plan.admits, built.delta append, marked, Option.map_some, Option.all_some, Delta.admits,
    F.cursor.value_text, Option.any_some]

theorem admits_none {plan : Plan} (none_ : plan.delta = none) (x : κ) :
    plan.admits c x = true := by rw [Plan.admits, none_, Option.all_none]

/-- Whatever the delta admits, it admits everything above. -/
theorem admits_up {plan : Plan} (x y : κ) (le : x ≤ y) (low : plan.admits c x = true) :
    plan.admits c y = true := by
  unfold Plan.admits Delta.admits at *
  cases delta : plan.delta with
  | none => rfl
  | some d =>
      rw [delta, Option.all_some] at low
      rw [Option.all_some]
      cases value : c.value d.literal with
      | none => rw [value] at low; nomatch low
      | some v =>
          rw [value, Option.any_some] at low
          exact decide_eq_true (lt_of_lt_of_le (of_decide_eq_true low) le)

/-- The table holds what the delta leaves out, each row once. -/
theorem Bounded.stood {plan : Plan} (built : Built F w plan) (append : plan.mode = .append)
    (bounded : Bounded F s w plan) (x : κ) :
    w.db.held s x = if x ∈ w.log s ∧ plan.admits F.cursor x = false then 1 else 0 := by
  unfold Bounded at bounded
  split at bounded
  · rename_i none_
    rw [bounded, admits_none (by rw [built.delta append, none_, Option.map_none]), if_neg]
    exact fun here => (by cases here.2)
  · rename_i wm marked
    obtain ⟨v, rfl, up⟩ := bounded
    rw [up.once, built.admits append marked]
    exact if_congr (and_congr_right fun _ => by rw [decide_eq_false_iff_not, not_lt]) rfl rfl

omit [LinearOrder κ] in
theorem moments_eq {seen : List (Db κ)} {i : Nat} (lt : i < seen.length) :
    moments seen i = seen[i] := by
  simp [moments, lt]

/-- The second look: the bound it agrees on is where the table stands. -/
theorem Looks.bounded {seen : List (Db κ)} {st : DestState} {plan : Plan} {τ : Token}
    (exact_ : Exact F w) (mints : F.Mints τ) (looks : Looks F (F.source τ) w seen)
    (all : seen.length = 6)
    (found : destState F.cursor (F.bound τ) (moments seen) = .ok st)
    (still : watermarkMoved plan.watermark st.watermark = false) :
    Bounded F (F.source τ) w plan := by
  have same : plan.watermark = st.watermark := by simpa [watermarkMoved] using still
  have at_mem (i : Nat) (lt : i < 6) : moments seen i ∈ seen := by
    rw [moments_eq (all ▸ lt)]
    exact List.getElem_mem _
  obtain ⟨missing, -⟩ | ⟨-, -, finds⟩ := destState_finds found
  · have is := looks.there _ (at_mem 0 (by decide))
    rw [missing] at is
    nomatch is
  · unfold Bounded
    rw [same]
    generalize st.watermark = watermark at finds
    cases finds with
    | empty none_there =>
        intro x
        rw [← (looks.since _ (at_mem 3 (by decide))).held x]
        exact held_eq_zero none_there x
    | @own r row =>
        have now := (looks.since _ (at_mem 2 (by decide))).own.symm.trans row
        rw [ownRow_eq F.qualified exact_.keyed] at now
        exact exact_.owned _ r now
    | data _ some_there alone =>
        have later : (moments seen 4).rows ≠ [] := by
          have order := List.pairwise_iff_getElem.mp looks.ordered 3 4 (by omega)
            (by omega) (by decide)
          rw [moments_eq (by omega)] at some_there ⊢
          exact order some_there
        have lone : Lone F (F.source τ) :=
          (looks.since _ (at_mem 4 (by decide))).settled alone later
        have stateless : w.db.stateRows F.destKey = 0 :=
          ((looks.since _ (at_mem 4 (by decide))).lone lone).2.symm.trans alone
        have rows := ((looks.since _ (at_mem 5 (by decide))).lone lone).1
        have some_now := (looks.since _ (at_mem 4 (by decide))).rows later
        obtain ⟨t, lone', -, most⟩ := exact_.adopted stateless some_now
        obtain ⟨v, max, mark⟩ := tableWatermark_some (c := F.cursor) some_now
        rw [rows, mark]
        exact ⟨v, rfl, lone' τ mints ▸ most v max⟩

/-! ## What a run sees of the others -/

section apart

variable {σ τ : Token} {p : Phase κ} {plan : Plan}

/-- A run that lists holds its lock. -/
theorem Phase.Holds.lock (holds : p.Holds F w σ) (listing : ∃ plan ls, p = .scanning plan ls) :
    F.lock σ ∈ w.db.objects := by
  obtain ⟨plan, ls, rfl⟩ := listing
  exact holds.2.2

/-- A run past its check shows by its lock or by its staging. -/
theorem Phase.Holds.marked (holds : p.Holds F w σ) (past : p.past = true) :
    F.lock σ ∈ w.db.objects ∨ F.staging σ ∈ w.db.objects := by
  cases p with
  | idle | ceased | looking | planned | locked | scanning => nomatch past
  | passed => exact .inl holds.2.2
  | staged => exact .inr holds.2.2
  | relooking | confirmed | loading => exact .inr holds.2.2.1

theorem Phase.Holds.mints (holds : p.Holds F w σ)
    (here : p.past = true ∨ ∃ plan ls, p = .scanning plan ls) : F.Mints σ := by
  obtain past | ⟨plan, ls, rfl⟩ := here
  · cases p with
    | idle | ceased | looking | planned | locked | scanning => nomatch past
    | passed | staged | relooking | confirmed | loading => exact holds.1
  · exact holds.1

/-- Whoever passes its check is alone past it. -/
theorem Apart.passes {locks : List Name} (apart : Apart F w.db.objects σ τ p (.scanning plan locks))
    (holds : p.Holds F w σ) (τ_mints : F.Mints τ) (ne : σ ≠ τ) (same : F.source σ = F.source τ)
    (free : (Guard.blockers F.table ⟨τ, none⟩ [.lock, .staging]
      (locks ++ w.db.objects.filter (·.artifact = .staging))).blockers = []) :
    Apart F w.db.objects σ τ p (.passed plan) := by
  have unseen (σ_mints : F.Mints σ) : F.lock σ ∉ locks ∧ F.staging σ ∉ w.db.objects := by
    refine ⟨fun mem => ?_, fun mem => ?_⟩
    · exact blockers_ne_nil_of_same_source σ_mints τ_mints ne same
        (List.mem_append_left _ mem) rfl List.mem_cons_self rfl free
    · refine blockers_ne_nil_of_same_source (n := F.staging σ) σ_mints τ_mints ne same
        (List.mem_append_right _ ?_) rfl (List.mem_cons_of_mem _ (List.mem_singleton.mpr rfl))
        rfl free
      exact List.mem_filter.mpr ⟨mem, rfl⟩
  have before : ¬ p.past = true := by
    intro past
    obtain ⟨no_lock, no_staging⟩ := unseen (holds.mints (.inl past))
    obtain lock | staging := apart.seen plan locks rfl past
    · exact no_lock lock
    · exact no_staging staging
  refine ⟨fun _ _ _ _ _ at_q => (nomatch at_q), fun plan' ls at_p _ => ?_, fun _ _ at_q =>
    (nomatch at_q), fun both => before both.1⟩
  obtain mine | theirs := apart.both plan' plan ls locks at_p rfl
  · exact .inl mine
  · exact absurd theirs (unseen (holds.mints (.inr ⟨_, ls, at_p⟩))).1

/-- Listing the locks. -/
theorem Phase.Holds.listed (holds : p.Holds F w σ) :
    Apart F w.db.objects σ τ p (.scanning plan (w.db.objects.filter (·.artifact = .lock))) := by
  refine ⟨fun _ _ ls ms at_p at_q => ?_, fun _ _ _ past => (nomatch past), fun _ ms at_q past => ?_,
    fun both => (nomatch both.2)⟩
  · obtain rfl := (Phase.scanning.inj at_q).2
    exact .inr (List.mem_filter.mpr ⟨holds.lock ⟨_, ls, at_p⟩, rfl⟩)
  · obtain rfl := (Phase.scanning.inj at_q).2
    exact (holds.marked past).imp (fun mem => List.mem_filter.mpr ⟨mem, rfl⟩) id

end apart

/-! ## One move -/

theorem around_same (log : w'.log = w.log) (final : w'.db.final = w.db.final)
    (state : w'.db.state = w.db.state) : Around F s w w' := by
  have rows : w'.db.rows = w.db.rows := by rw [Db.rows, Db.rows, final]
  refine ⟨log ▸ List.prefix_rfl, fun x mem fresh => absurd (log ▸ mem) fresh, fun x => ?_,
    final ▸ id, rows ▸ id, fun _ => ?_, fun _ => ⟨rows, ?_⟩⟩
  · rw [Db.held, Db.held, rows]
  · simp only [Db.ownRow, Db.row, state]
  · rw [Db.stateRows, Db.stateRows, state]

/-- A landing leaves the other sources alone. -/
theorem around_land {τ : Token} {mode : Iceberg.Mode} {rows : List κ} {db : Db κ}
    (exact_ : Exact F w)
    (after : Exact F { w with db := db }) (mints : F.Mints τ)
    (lands : Lands F.cursor (F.bound τ) mode (rows.map fun v => (F.source τ, v)) w.db db)
    (ne : s ≠ F.source τ) : Around F s w { w with db := db } := by
  refine ⟨List.prefix_rfl, fun x mem fresh => absurd mem fresh, fun x => ?_, fun _ => lands.final,
    fun some_there empty => ?_, fun there => ?_, fun lone => absurd (lone τ mints).symm ne⟩
  · show db.held s x = w.db.held s x
    rw [lands.held, count_tagged, if_neg ne, Nat.add_zero]
  · have both : db.rows = [] := empty
    rw [lands.rows] at both
    exact some_there (List.append_eq_nil_iff.mp both).1
  · show db.ownRow F.destKey s = w.db.ownRow F.destKey s
    rw [ownRow_eq F.qualified exact_.keyed, ownRow_eq F.qualified after.keyed]
    obtain kept | ⟨missing, -⟩ := lands.others s ne
    · exact kept
    · rw [missing] at there
      nomatch there

/-- What every state of the runs keeps. -/
structure Sound (F : Fleet κ) (w : World κ) : Prop where
  exact_ : Exact F w
  holds : ∀ τ, (w.runs τ).Holds F w τ
  apart : ∀ σ τ, σ ≠ τ → F.source σ = F.source τ →
    Apart F w.db.objects σ τ (w.runs σ) (w.runs τ)

/-- A run's move to a phase, with what it made or dropped beside the table. -/
def World.turn (w : World κ) (τ : Token) (p : Phase κ) (objects : List Name) : World κ :=
  { w with db := { w.db with objects := objects }, runs := Function.update w.runs τ p }

variable {σ τ : Token} {p : Phase κ} {objects : List Name} {plan : Plan}

/-- A move that lands nothing. -/
theorem Sound.turn (sound : Sound F w)
    (others : ∀ n, n.token ≠ some τ → n ∈ w.db.objects → n ∈ objects)
    (holds : p.Holds F (w.turn τ p objects) τ)
    (apart : ∀ σ, σ ≠ τ → F.source σ = F.source τ → Apart F objects σ τ (w.runs σ) p) :
    Sound F (w.turn τ p objects) := by
  have self : (w.turn τ p objects).runs τ = p := Function.update_self ..
  have other {σ : Token} (ne : σ ≠ τ) : (w.turn τ p objects).runs σ = w.runs σ :=
    Function.update_of_ne ne ..
  have of_ne {σ : Token} (ne : σ ≠ τ) (n : Name) (own : n.token = some σ) : n.token ≠ some τ :=
    fun is => ne (Option.some.inj (own.symm.trans is))
  refine ⟨sound.exact_.of_same rfl rfl rfl, fun σ => ?_, fun σ ρ ne same => ?_⟩
  · by_cases mine : σ = τ
    · subst mine
      rw [self]
      exact holds
    · rw [other mine]
      exact (sound.holds σ).around id (fun n own => others n (of_ne mine n own)) fun _ =>
        around_same rfl rfl rfl
  · by_cases first : σ = τ
    · subst first
      rw [self, other ne.symm]
      exact (apart ρ ne.symm same.symm).symm
    · by_cases second : ρ = τ
      · subst second
        rw [self, other first]
        exact apart σ first same
      · rw [other first, other second]
        exact (sound.apart σ ρ ne same).kept fun n own =>
          others n (own.elim (of_ne first n) (of_ne second n))

/-- A move that lands nothing, to a phase of no concern to the others. -/
theorem Sound.quiet (sound : Sound F w)
    (others : ∀ n, n.token ≠ some τ → n ∈ w.db.objects → n ∈ objects) (before : p.past = false)
    (idle : ∀ plan ls, p ≠ .scanning plan ls) (holds : p.Holds F (w.turn τ p objects) τ) :
    Sound F (w.turn τ p objects) :=
  sound.turn others holds fun _ _ _ => .quiet before idle

/-- A move between phases past the check. -/
theorem Sound.stay (sound : Sound F w)
    (others : ∀ n, n.token ≠ some τ → n ∈ w.db.objects → n ∈ objects)
    (here : (w.runs τ).past = true) (past : p.past = true) (staging : F.staging τ ∈ objects)
    (holds : p.Holds F (w.turn τ p objects) τ) : Sound F (w.turn τ p objects) :=
  sound.turn others holds fun σ ne same => (sound.apart σ τ ne same).stay here past staging

theorem Sound.commit {t : String} (sound : Sound F w) (above : F.floor t < v)
    (rises : ∀ x ∈ w.log t, x < v) : Sound F (w.commit t v) :=
  ⟨sound.exact_.commit above rises, fun τ => (sound.holds τ).around id (fun _ _ mem => mem) fun _ =>
    around_commit above rises _, sound.apart⟩

/-- The landing. -/
theorem Sound.land {rows : List κ} {db : Db κ} (sound : Sound F w)
    (here : w.runs τ = .loading plan [] rows) (some_rows : rows ≠ [])
    (landed : finalize F.cursor (F.bound τ) w.db τ.kind plan.mode (F.staging τ)
      (rows.map fun v => (F.source τ, v)) = some db) :
    Sound F ({ w with db := db }.goto τ .ceased) := by
  have mine := sound.holds τ
  rw [here] at mine
  obtain ⟨mints, built, -, bounded, pre, read⟩ := mine
  rw [mints.1] at landed
  have lands := finalize_lands (F.bound_qualified τ) (by simpa using some_rows) landed
  have counts (x : κ) : rows.count x = if x ∈ pre ∧ plan.admits F.cursor x =
    true then 1 else 0 := by
    rw [read.count]
    exact if_congr (and_congr_right fun _ => and_iff_left nofun) rfl rfl
  have stood (x : κ) : w.db.held (F.source τ) x =
      if x ∈ w.log (F.source τ) ∧ plan.admits F.cursor x = false then 1 else 0 := by
    obtain ⟨replace, missing⟩ | ⟨append, -⟩ := lands.before
    · rw [held_eq_zero (rows_eq_nil missing), admits_none (built.first replace), if_neg]
      exact fun here => nomatch here.2
    · exact (bounded append).stood built append x
  have after := sound.exact_.land mints lands read.sofar admits_up counts stood
  have objects (n : Name) (own : n.token ≠ some τ) (mem : n ∈ w.db.objects) : n ∈ db.objects := by
    rw [finalize_objects landed]
    exact List.mem_filter.mpr ⟨mem, decide_eq_true fun is => own (is ▸ rfl)⟩
  have self : ({ w with db := db }.goto τ .ceased).runs τ = .ceased := Function.update_self ..
  have other {σ : Token} (ne : σ ≠ τ) : ({ w with db := db }.goto τ .ceased).runs σ = w.runs σ :=
    Function.update_of_ne ne ..
  have of_ne {σ : Token} (ne : σ ≠ τ) (n : Name) (own : n.token = some σ) : n.token ≠ some τ :=
    fun is => ne (Option.some.inj (own.symm.trans is))
  refine ⟨after.of_same rfl rfl rfl, fun σ => ?_, fun σ ρ ne same => ?_⟩
  · by_cases mine : σ = τ
    · subst mine
      rw [self]
      trivial
    · rw [other mine]
      refine (sound.holds σ).around (fun _ => lands.final) (fun n own =>
        objects n (of_ne mine n own))
        fun past => ?_
      have apart := sound.apart σ τ mine
      have ne : F.source σ ≠ F.source τ := fun same => by
        refine (apart same).never ⟨past, ?_⟩
        rw [here]
        rfl
      exact { around_land sound.exact_ after mints lands ne with }
  · by_cases first : σ = τ
    · subst first
      rw [self, other ne.symm]
      exact Apart.symm (.quiet rfl fun _ _ is => nomatch is)
    · by_cases second : ρ = τ
      · subst second
        rw [self]
        exact .quiet rfl fun _ _ is => nomatch is
      · rw [other first, other second]
        exact (sound.apart σ ρ ne same).kept fun n own =>
          objects n (own.elim (of_ne first n) (of_ne second n))

omit [LinearOrder κ] in
theorem planOf_built {st : DestState} (decided : planOf F.cursor st = .ok plan)
    (there : st.present = true → w.db.final.isSome) : Built F w plan := by
  unfold planOf at decided
  split at decided
  · obtain rfl := Except.ok.inj decided
    exact ⟨.inl rfl, fun _ => rfl, nofun, nofun⟩
  · rename_i present
    have now := there (by simpa using present)
    split at decided
    · obtain rfl := Except.ok.inj decided
      exact ⟨.inr rfl, nofun, fun _ => now, fun _ => rfl⟩
    · split at decided
      · rename_i quoted
        obtain rfl := Except.ok.inj decided
        exact ⟨.inr rfl, nofun, fun _ => now, fun _ => by simp [quoted]⟩
      · rename_i plain
        split at decided
        · obtain rfl := Except.ok.inj decided
          exact ⟨.inr rfl, nofun, fun _ => now, fun _ => by simp [plain]⟩
        · nomatch decided

/-- The destination as it is now is one more query of the second look. -/
theorem Looks.now {seen : List (Db κ)} (looks : Looks F s w seen) (exact_ : Exact F w)
    (there : w.db.final.isSome) (mints : F.Mints τ) (source : F.source τ = s) :
    Looks F s w (seen ++ [w.db]) := by
  have here : Since F s w w.db := by
    refine ⟨rfl, fun _ => rfl, id, fun _ => ⟨rfl, rfl⟩, fun stateless some_there => ?_⟩
    obtain ⟨t, lone, -⟩ := exact_.adopted stateless some_there
    exact (lone τ mints).symm.trans source ▸ lone
  refine ⟨fun d mem => ?_, fun d mem => ?_, List.pairwise_append.mpr ⟨looks.ordered,
    List.pairwise_singleton .., fun d mem d' last => ?_⟩⟩
  · obtain mem | mem := List.mem_append.mp mem
    · exact looks.there d mem
    · exact List.mem_singleton.mp mem ▸ there
  · obtain mem | mem := List.mem_append.mp mem
    · exact looks.since d mem
    · exact List.mem_singleton.mp mem ▸ here
  · exact List.mem_singleton.mp last ▸ (looks.since d mem).rows

theorem Sound.step (sound : Sound F w) (step : Step F w w') : Sound F w' := by
  have same {τ : Token} (n : Name) (_ : n.token ≠ some τ) (mem : n ∈ w.db.objects) :
      n ∈ w.db.objects := mem
  have mine {τ : Token} {p : Phase κ} (here : w.runs τ = p) : p.Holds F w τ := here ▸ sound.holds τ
  have past {τ : Token} {p : Phase κ} (here : w.runs τ = p) (is : p.past = true) :
      (w.runs τ).past = true := here ▸ is
  cases step with
  | commit s v above rises => exact sound.commit above rises
  | start here mints => exact sound.quiet same rfl (fun _ _ is => nomatch is) ⟨mints, nofun⟩
  | look here =>
      obtain ⟨mints, earlier⟩ := mine here
      refine sound.quiet same rfl (fun _ _ is => nomatch is) ⟨mints, fun d mem => ?_⟩
      obtain mem | mem := List.mem_append.mp mem
      · exact earlier d mem
      · exact List.mem_singleton.mp mem ▸ id
  | @decide τ seen st plan here all found decided =>
      obtain ⟨mints, earlier⟩ := mine here
      refine sound.quiet same rfl (fun _ _ is => nomatch is) ⟨mints, planOf_built decided
        fun present => ?_⟩
      obtain ⟨-, rfl⟩ | ⟨there, -⟩ := destState_finds found
      · nomatch present
      · rw [moments_eq (by omega)] at there
        exact earlier _ (List.getElem_mem _) there
  | announce here =>
      obtain ⟨mints, built⟩ := mine here
      exact sound.quiet (fun _ _ => mem_created) rfl (fun _ _ is => nomatch is)
        ⟨mints, built.grown id, mem_new⟩
  | listLocks here =>
      obtain ⟨mints, built, lock⟩ := mine here
      exact sound.turn same ⟨mints, built.grown id, lock⟩ fun σ _ _ => (sound.holds σ).listed
  | @checkPeers τ plan locks here free =>
      obtain ⟨mints, built, lock⟩ := mine here
      refine sound.turn same ⟨mints, built.grown id, lock⟩ fun σ ne alike => ?_
      have apart := sound.apart σ τ ne alike
      rw [here] at apart
      exact apart.passes (sound.holds σ) mints ne alike free
  | stage here =>
      obtain ⟨mints, built, lock⟩ := mine here
      exact sound.stay (fun _ _ => mem_created) (past here rfl) rfl mem_new
        ⟨mints, built.grown id, mem_new⟩
  | release here =>
      obtain ⟨mints, built, staging⟩ := mine here
      exact sound.stay (fun _ => mem_dropped rfl) (past here rfl) rfl (staging_kept staging)
        ⟨mints, built.grown id, staging_kept staging, fun _ => ⟨nofun, nofun, .nil⟩⟩
  | abandonLock here =>
      obtain ⟨mints, built, staging⟩ := mine here
      exact sound.stay same (past here rfl) rfl staging
        ⟨mints, built.grown id, staging, fun _ => ⟨nofun, nofun, .nil⟩⟩
  | @relook τ plan seen here =>
      obtain ⟨mints, built, staging, looks⟩ := mine here
      refine sound.stay same (past here rfl) rfl staging ⟨mints, built.grown id, staging,
        fun append => ?_⟩
      exact ((looks append).now sound.exact_ (built.there append) mints rfl).around
        (built.there append)
        (around_same rfl rfl rfl)
  | @confirm τ plan seen st here all found still =>
      obtain ⟨mints, built, staging, looks⟩ := mine here
      refine sound.stay same (past here rfl) rfl staging ⟨mints, built.grown id, staging,
        fun append => ?_⟩
      exact ((looks append).bounded sound.exact_ mints all found still).around
        (around_same rfl rfl rfl)
  | split here splits =>
      obtain ⟨mints, built, staging, bounded⟩ := mine here
      exact sound.stay same (past here rfl) rfl staging ⟨mints, built.grown id,
        staging, fun append =>
        (bounded append).around (around_same rfl rfl rfl), _, splits.read⟩
  | read here =>
      obtain ⟨mints, built, staging, bounded, pre, read⟩ := mine here
      exact sound.stay same (past here rfl) rfl staging ⟨mints, built.grown id,
        staging, fun append =>
        (bounded append).around (around_same rfl rfl rfl), read.step (sound.exact_.rising _)⟩
  | land here some_rows landed => exact sound.land here some_rows landed
  | leave => exact sound.quiet same rfl (fun _ _ is => nomatch is) trivial
  | @sweep τ n here own =>
      have ceased : w.runs = Function.update w.runs τ .ceased := by
        rw [← here, Function.update_eq_self]
      have turn : w.drop n = w.turn τ .ceased (w.db.objects.filter (· ≠ n)) := by
        rw [World.turn, ← ceased]
        rfl
      rw [turn]
      exact sound.quiet (fun _ => mem_dropped own) rfl (fun _ _ is => nomatch is) trivial

/-! ## Runs -/

/-- A good table, and no run yet. -/
structure Start (F : Fleet κ) (w : World κ) : Prop where
  exact_ : Exact F w
  idle : ∀ τ, w.runs τ = .idle

theorem Sound.start (start : Start F w) : Sound F w := by
  refine ⟨start.exact_, fun τ => ?_, fun σ τ _ _ => ?_⟩
  · rw [start.idle]
    trivial
  · rw [start.idle τ]
    exact .quiet rfl fun _ _ is => nomatch is

theorem Sound.run (sound : Sound F w) (run : Reaches F w w') : Sound F w' := by
  induction run with
  | refl => exact sound
  | tail _ step ih => exact ih.step step

/-- Rows are never taken away. -/
theorem Sound.held_step (sound : Sound F w) (step : Step F w w') (t : String) (x : κ) :
    w.db.held t x ≤ w'.db.held t x := by
  cases step with
  | @land τ plan rows db here some_rows landed =>
      have mine := sound.holds τ
      rw [here] at mine
      rw [mine.1.1] at landed
      have lands := finalize_lands (F.bound_qualified τ) (by simpa using some_rows) landed
      exact (lands.held x).symm ▸ Nat.le_add_right ..
  | _ => exact le_rfl

theorem Sound.held_run (sound : Sound F w) (run : Reaches F w w') (t : String) (x : κ) :
    w.db.held t x ≤ w'.db.held t x := by
  induction run with
  | refl => exact le_rfl
  | tail before step ih => exact ih.trans ((sound.run before).held_step step t x)

theorem rows_ne {t : String} {x : κ} (there : 0 < d.held t x) : d.rows ≠ [] := fun empty => by
  rw [held_eq_zero empty] at there
  exact absurd there (Nat.lt_irrefl 0)

/-- Another source's rows come with state rows. -/
theorem Sound.siblings {t : String} {x : κ} (sound : Sound F w) (mints : F.Mints τ)
    (other : t ≠ F.source τ) (there : 0 < w.db.held t x) : w.db.stateRows F.destKey ≠ 0 := by
  intro stateless
  obtain ⟨s, lone, others, -⟩ := sound.exact_.adopted stateless (rows_ne there)
  rw [others t (fun is => other (is.trans (lone τ mints).symm))] at there
  exact absurd there (Nat.lt_irrefl 0)

/-- In every state the runs reach, the table holds each source's rows up to its stored
watermark, each once, and none above; a source without a state row beside others' has no
row there. A look that misses its own state row while another source's rows are there is
refused, and one that finds others' state rows resolves to no watermark at best. -/
theorem lands_once {w₀ : World κ} (start : Start F w₀) (run : Reaches F w₀ w) :
    (∀ s r, w.db.row F.destKey s = some r → ∃ v, r.watermark = F.cursor.text v ∧
      ∀ x, w.db.held s x = if x ∈ w.log s ∧ x ≤ v then 1 else 0) ∧
    (∀ s, w.db.row F.destKey s = none → w.db.stateRows F.destKey ≠ 0 → ∀ x, w.db.held s x = 0) ∧
    (∀ τ (m : Nat → World κ), F.Mints τ → Reaches F w (m 0) → (∀ i, Reaches F (m i) (m (i + 1))) →
      (m 0).db.final.isSome → (m 2).db.ownRow F.destKey (F.source τ) = none →
      (∃ t x, t ≠ F.source τ ∧ 0 < (m 3).db.held t x) →
      ∃ e, destState F.cursor (F.bound τ) (fun i => (m i).db) = .error e) ∧
    ∀ τ (at_ : Nat → Db κ) st, destState F.cursor (F.bound τ) at_ = .ok st →
      (at_ 2).ownRow F.destKey (F.source τ) = none → (at_ 4).stateRows F.destKey ≠ 0 →
      st.watermark = none := by
  have sound : Sound F w := (Sound.start start).run run
  refine ⟨fun s r row => ?_, sound.exact_.absent, fun τ m mints first next there own => ?_,
    fun τ at_ st found own siblings => ?_⟩
  · obtain ⟨v, text, up⟩ := sound.exact_.owned s r row
    exact ⟨v, text, up.once⟩
  · rintro ⟨t, x, other, here⟩
    have sound₃ : Sound F (m 3) :=
      sound.run (((first.trans (next 0)).trans (next 1)).trans (next 2))
    have later : 0 < (m 4).db.held t x := here.trans_le (sound₃.held_run (next 3) t x)
    exact destState_refuses there own (rows_ne here)
      ((sound₃.run (next 3)).siblings mints other later)
  · obtain ⟨-, rfl⟩ | ⟨-, -, finds⟩ := destState_finds found
    · rfl
    · generalize st.watermark = watermark at finds
      cases finds with
      | empty => rfl
      | own row => exact nomatch own.symm.trans row
      | data _ _ alone => exact absurd alone siblings

/-! ### A second run beside a sibling source -/

/-- One-digit cursors. -/
def digitCursor : Cursor (Fin 10) where
  col := "id"
  quoted := false
  text v := [Char.ofNat (48 + v)]
  cursorLiteral t := t
  value t := t.head?.map fun c => Fin.ofNat 10 (c.toNat - 48)
  value_text := by decide

def ordersFleet : Fleet (Fin 10) where
  cursor := digitCursor
  table := "orders"
  destKey := "shop.orders"
  qualified := by decide +kernel
  source τ := if τ.source = 7 then "eu" else "us"
  cols _ := ["id"]
  hash s := if s = "eu" then 7 else 8
  floor _ := ⊥

def nightly : Token := ⟨1, .incremental, 7, 0⟩

def ordersLog (s : String) : List (Fin 10) :=
  if s = "eu" then [1, 3, 5] else if s = "us" then [2] else []

/-- Both sources have loaded once, and `eu` has committed a row since. -/
def orders (objects : List Name) : Db (Fin 10) :=
  ⟨some ⟨["id"], [("us", 2), ("eu", 1), ("eu", 3)]⟩,
    [⟨"shop.orders", "us", "id", ['2'], "replace", 1⟩,
      ⟨"shop.orders", "eu", "id", ['3'], "append", 2⟩], objects⟩

/-- The run of `eu` at a phase. -/
def nightlyAt (db : Db (Fin 10)) (p : Phase (Fin 10)) : World (Fin 10) :=
  ⟨ordersLog, db, Function.update (fun _ => .idle) nightly p⟩

theorem orders_row {s : String} (eu : s ≠ "eu") (us : s ≠ "us") :
    (orders []).row "shop.orders" s = none := by
  simp [Db.row, orders, eu.symm, us.symm]

theorem orders_held {s : String} (eu : s ≠ "eu") (us : s ≠ "us") (x : Fin 10) :
    (orders []).held s x = 0 := by
  simp [Db.held, Db.rows, orders, eu.symm, us.symm]

theorem nightly_start : Start ordersFleet (nightlyAt (orders []) .idle) where
  idle _ := by rw [nightlyAt, Function.update_eq_self]
  exact_ :=
    { rising := fun s => by
        show (ordersLog s).Pairwise (· < ·)
        unfold ordersLog
        split
        · decide
        · split <;> decide
      above := fun _ v _ => WithBot.bot_lt_coe v
      keyed := by decide +kernel
      owned := fun s r row => by
        change (orders []).row "shop.orders" s = some r at row
        by_cases eu : s = "eu"
        · subst eu
          obtain rfl := Option.some.inj row
          exact ⟨3, rfl, .inr ⟨3, by decide, le_rfl⟩, by decide⟩
        · by_cases us : s = "us"
          · subst us
            obtain rfl := Option.some.inj row
            exact ⟨2, rfl, .inr ⟨2, by decide, le_rfl⟩, by decide⟩
          · exact nomatch (orders_row eu us).symm.trans row
      absent := fun s row _ x => by
        change (orders []).row "shop.orders" s = none at row
        refine orders_held (fun eu => ?_) (fun us => ?_) x
        · subst eu
          nomatch row
        · subst us
          nomatch row
      adopted := fun stateless => nomatch stateless }

theorem nightlyAt_goto (db : Db (Fin 10)) (p q : Phase (Fin 10)) :
    (nightlyAt db p).goto nightly q = nightlyAt db q := by
  rw [World.goto, nightlyAt, Function.update_idem, nightlyAt]

theorem nightlyAt_step {db db' : Db (Fin 10)} {p q : Phase (Fin 10)}
    (step : Step ordersFleet (nightlyAt db p) ((nightlyAt db' p).goto nightly q)) :
    Reaches ordersFleet (nightlyAt db p) (nightlyAt db' q) :=
  .single (nightlyAt_goto db' p q ▸ step)

theorem nightlyAt_looks (db : Db (Fin 10)) (n : Nat) :
    Reaches ordersFleet (nightlyAt db (.looking []))
      (nightlyAt db (.looking (.replicate n db))) := by
  induction n with
  | zero => exact .refl
  | succ n ih =>
      rw [List.replicate_succ']
      exact ih.trans (nightlyAt_step (.look rfl))

theorem nightlyAt_relooks (db : Db (Fin 10)) (plan : Plan) (n : Nat) :
    Reaches ordersFleet (nightlyAt db (.relooking plan []))
      (nightlyAt db (.relooking plan (.replicate n db))) := by
  induction n with
  | zero => exact .refl
  | succ n ih =>
      rw [List.replicate_succ']
      exact ih.trans (nightlyAt_step (.relook rfl))

def stagedOrders : Db (Fin 10) :=
  orders (([ordersFleet.lock nightly] ++ [ordersFleet.staging nightly]).filter
    (· ≠ ordersFleet.lock nightly))

/-- The run resumes above its own state row, and lands the one row that is new. -/
theorem nightly_lands : ∃ db, Reaches ordersFleet (nightlyAt (orders []) .idle)
    (nightlyAt db .ceased) ∧
      finalize digitCursor (ordersFleet.bound nightly) stagedOrders .incremental .append
        (ordersFleet.staging nightly) [("eu", 5)] = some db := by
  let plan : Plan := ⟨.append, some ['3'], some ⟨"id", ">", ['3']⟩⟩
  let locked : Db (Fin 10) := orders [ordersFleet.lock nightly]
  have started : Reaches ordersFleet (nightlyAt (orders []) .idle)
      (nightlyAt (orders []) (.looking [])) := nightlyAt_step (.start rfl ⟨rfl, rfl⟩)
  have announced : Reaches ordersFleet
    (nightlyAt (orders []) (.looking (.replicate 6 (orders []))))
      (nightlyAt locked (.locked plan)) :=
    (nightlyAt_step (.decide rfl rfl rfl rfl)).trans <| nightlyAt_step (.announce rfl)
  have passed : Reaches ordersFleet (nightlyAt locked (.locked plan))
      (nightlyAt locked (.passed plan)) :=
    (nightlyAt_step (.listLocks rfl)).trans <| nightlyAt_step (.checkPeers rfl (by decide))
  have stands : Reaches ordersFleet (nightlyAt locked (.passed plan))
      (nightlyAt stagedOrders (.relooking plan [])) :=
    (nightlyAt_step (.stage rfl)).trans <| nightlyAt_step (.release rfl)
  have one : Splits [1, 3, 5] (plan.admits digitCursor) ([] ++ [fun _ => true]) :=
    .ranges (fun _ => rfl) nofun
  have loaded : Reaches ordersFleet
      (nightlyAt stagedOrders (.relooking plan (.replicate 6 stagedOrders)))
      (nightlyAt stagedOrders (.loading plan [] [5])) :=
    (nightlyAt_step (.confirm rfl rfl rfl rfl)).trans <| (nightlyAt_step (.split rfl one)).trans <|
      nightlyAt_step (@Step.read _ _ _ _ nightly plan [] [] (fun _ => true) [] rfl)
  have landed := loaded.trans (nightlyAt_step (.land rfl (by decide) rfl))
  exact ⟨_, started.trans <| (nightlyAt_looks _ 6).trans <| announced.trans <| passed.trans <|
    stands.trans <| (nightlyAt_relooks _ plan 6).trans landed, rfl⟩

theorem lands_once_second : ∃ w, Reaches ordersFleet (nightlyAt (orders []) .idle) w ∧
    w.db.rows = [("us", 2), ("eu", 1), ("eu", 3), ("eu", 5)] ∧
    ∀ s r, w.db.row ordersFleet.destKey s = some r → ∃ v, r.watermark = digitCursor.text v ∧
      ∀ x, w.db.held s x = if x ∈ w.log s ∧ x ≤ v then 1 else 0 := by
  obtain ⟨db, run, landed⟩ := nightly_lands
  exact ⟨_, run, (finalize_lands ordersFleet.qualified (by decide) landed).rows,
    (lands_once nightly_start run).1⟩

end Apitap.Append
