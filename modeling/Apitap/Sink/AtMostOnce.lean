import Apitap.Sink.BigQueryJob

/-!
# A script takes effect at most once

While one job id is in use, every earlier id's job is over without an effect and no
later id has been heard of. An attempt's verdict says what is known of the id's job:
committed, over, or, when the failure was on the way, nothing. Only a job that is over
gives up its id.
-/

namespace Apitap.BigQuery

section

variable {sql : String} {id : Nat → String}

/-- The job under the n-th id committed. -/
def Committed (sql : String) (id : Nat → String) (s : Service) (n : Nat) : Prop :=
  s.jobs (id n) = some ⟨sql, .done none⟩

/-- The job under the n-th id is not this script's, or failed: it has no effect. -/
def Dead (sql : String) (id : Nat → String) (s : Service) (n : Nat) : Prop :=
  ∃ j, s.jobs (id n) = some j ∧ (j.sql ≠ sql ∨ ∃ error, j.state = .done (some error))

/-- Nothing of this script is, or is under way, at the n-th id. -/
def Untouched (sql : String) (id : Nat → String) (s : Service) (n : Nat) : Prop :=
  (∀ j, s.jobs (id n) = some j → j.sql ≠ sql) ∧ ∀ p ∈ s.inFlight, p.1 ≠ id n

/-- The script is at its n-th id. -/
structure At (sql : String) (id : Nat → String) (n : Nat) (s : Service) : Prop where
  dead : ∀ m < n, Dead sql id s m
  untouched : ∀ m, n < m → Untouched sql id s m
  punctual : s.late = false
  lost : ∀ j, s.lost = some j → j = id n ∧
    ∃ error, s.jobs (id n) = some ⟨sql, .done (some error)⟩ ∧ mentions error lostMark = true

/-- What holds at every moment: no job was late, and at most one committed. -/
def Safe (sql : String) (id : Nat → String) (s : Service) : Prop :=
  s.late = false ∧ ∀ m n, Committed sql id s m → Committed sql id s n → m = n

/-- None of the script's jobs committed, and none can still commit. -/
def Over (sql : String) (id : Nat → String) (s : Service) : Prop :=
  ∀ n, Dead sql id s n ∨ Untouched sql id s n

theorem Dead.not_committed {s : Service} {n : Nat} (dead : Dead sql id s n) :
    ¬ Committed sql id s n := by
  intro committed
  obtain ⟨j, known, off⟩ := dead
  obtain rfl := Option.some.inj (committed.symm.trans known)
  obtain other | ⟨error, failed⟩ := off
  · exact other rfl
  · nomatch failed

theorem Untouched.not_committed {s : Service} {n : Nat} (untouched : Untouched sql id s n) :
    ¬ Committed sql id s n := fun committed => untouched.1 _ committed rfl

theorem At.safe {n : Nat} {s : Service} (here : At sql id n s) : Safe sql id s := by
  have only : ∀ m, Committed sql id s m → m = n := by
    intro m committed
    obtain before | same | after := Nat.lt_trichotomy m n
    · exact absurd committed (here.dead m before).not_committed
    · exact same
    · exact absurd committed (here.untouched m after).not_committed
  exact ⟨here.punctual, fun m k hm hk => (only m hm).trans (only k hk).symm⟩

/-! ## What the service does on its own -/

section drift

variable {s s' : Service} {n : Nat}

theorem Committed.drift (committed : Committed sql id s n) (moves : s.Drift s') :
    Committed sql id s' n := by
  cases moves with
  | finish error running =>
      rw [Committed] at committed ⊢
      simp only
      split
      · rename_i same
        rw [same, running] at committed
        nomatch committed
      · exact committed
  | land flying unknown =>
      rw [Committed] at committed ⊢
      simp only [Service.start]
      split
      · rename_i same
        rw [same, unknown] at committed
        nomatch committed
      · exact committed

/-- A job that is known keeps its text, and once it is DONE its state. -/
theorem Drift.job (moves : s.Drift s') {i : String} {j : Job} (known : s.jobs i = some j) :
    ∃ j', s'.jobs i = some j' ∧ j'.sql = j.sql ∧ (j.state ≠ .running → j' = j) := by
  cases moves with
  | @finish i' q error running =>
      by_cases same : i = i'
      · subst same
        obtain rfl := Option.some.inj (running.symm.trans known)
        exact ⟨_, if_pos rfl, rfl, fun done => absurd rfl done⟩
      · exact ⟨j, (if_neg same).trans known, rfl, fun _ => rfl⟩
  | @land i' q flying unknown =>
      have other : i ≠ i' := fun same => by rw [same, unknown] at known; nomatch known
      exact ⟨j, (if_neg other).trans known, rfl, fun _ => rfl⟩

theorem Dead.drift (dead : Dead sql id s n) (moves : s.Drift s') : Dead sql id s' n := by
  obtain ⟨j, known, off⟩ := dead
  obtain ⟨j', known', text, kept⟩ := Drift.job moves known
  refine ⟨j', known', off.imp (fun other => text ▸ other) fun ⟨error, failed⟩ => ?_⟩
  rw [kept (by rw [failed]; nofun)]
  exact ⟨error, failed⟩

theorem Untouched.drift (untouched : Untouched sql id s n) (moves : s.Drift s') :
    Untouched sql id s' n := by
  cases moves with
  | @finish i q error running =>
      refine ⟨fun j known => ?_, untouched.2⟩
      simp only at known
      split at known
      · rename_i same
        obtain rfl := Option.some.inj known
        exact untouched.1 ⟨q, .running⟩ (same ▸ running)
      · exact untouched.1 j known
  | @land i q flying unknown =>
      refine ⟨fun j known => ?_, untouched.2⟩
      simp only [Service.start] at known
      split at known
      · rename_i same
        exact absurd same.symm (untouched.2 _ flying)
      · exact untouched.1 j known

theorem At.drift (here : At sql id n s) (moves : s.Drift s') : At sql id n s' := by
  refine ⟨fun m lt => (here.dead m lt).drift moves, fun m gt => (here.untouched m gt).drift moves,
    ?_, fun j lost => ?_⟩
  · cases moves <;> exact here.punctual
  · have was : s.lost = some j := by cases moves <;> exact lost
    obtain ⟨same, error, known, mark⟩ := here.lost j was
    obtain ⟨j', known', -, kept⟩ := Drift.job moves known
    exact ⟨same, error, by rw [known', kept nofun], mark⟩

theorem Over.drift (ceased : Over sql id s) (moves : s.Drift s') : Over sql id s' :=
  fun n => (ceased n).imp (·.drift moves) (·.drift moves)

end drift

/-! ## What an answer says -/

section answers

variable {s s' : Service} {n : Nat}

/-- What is known of the id's job once an attempt at it ended. -/
def Judged (sql : String) (id : Nat → String) (n : Nat) (verdict : Verdict) (s : Service) : Prop :=
  At sql id n s ∧ match verdict with
    | .ok () => Committed sql id s n
    | .error (.failed m) => Dead sql id s n ∧ (s.lost ≠ none → mentions m lostMark = true)
    | .error (.transport m) => mentions m lostMark = false

theorem Judged.drift {verdict : Verdict} (judged : Judged sql id n verdict s) (moves : s.Drift s') :
    Judged sql id n verdict s' := by
  have same : s'.lost = s.lost := by cases moves <;> rfl
  refine ⟨judged.1.drift moves, ?_⟩
  have known := judged.2
  match verdict with
  | .ok () => exact known.drift moves
  | .error (.failed m) => exact ⟨known.1.drift moves, fun lost => known.2 (same ▸ lost)⟩
  | .error (.transport m) => exact known

theorem Judged.pure {verdict : Verdict} (judged : Judged sql id n verdict s) :
    (Service.env sql).Meets (Safe sql id) (Judged sql id n) (.pure verdict) s :=
  .pure (fun _ _ here moves => Judged.drift here moves) judged (fun _ here => here.1.safe)
    fun _ here => here

/-- A call that changes nothing the script relies on. -/
theorem At.served (here : At sql id n s) {c : Call} {ans : Answer}
    (served : Service.Serve sql s c ans s') (asked : ∀ i q, c ≠ .insert i q)
    (own : ∀ i, c = .get i → i = id n) : At sql id n s' := by
  cases served with
  | located | failed | cancelled => exact here
  | @job i j known =>
      obtain rfl := own i rfl
      rw [Service.seen]
      split
      · rename_i error failed
        split
        · rename_i lost
          refine ⟨here.dead, here.untouched, here.punctual, fun k reported => ?_⟩
          obtain rfl := Option.some.inj reported
          obtain ⟨text, state⟩ := j
          obtain rfl := lost.1
          obtain rfl := failed
          exact ⟨rfl, error, known, lost.2⟩
        · exact here
      · exact here
  | accepted | unheard | refused => exact absurd rfl (asked _ _)

theorem seen_jobs (i : String) (j : Job) : (s.seen sql i j).jobs = s.jobs := by
  rw [Service.seen]
  split
  · split <;> rfl
  · rfl

theorem append_mentions {w front error : String} (mark : mentions error w = true) :
    mentions (front ++ error) w = true := by
  refine decide_eq_true ?_
  rw [String.toList_append]
  exact (of_decide_eq_true mark).trans (List.suffix_append _ _).isInfix

/-- The error of a job that is over, as a message about it. -/
theorem Judged.failed (here : At sql id n s) {j : Job} (known : s.jobs (id n) = some j)
    {error m : String} (ceased : j.state = .done (some error))
    (carries : mentions error lostMark = true → mentions m lostMark = true) :
    Judged sql id n (.error (.failed m)) s := by
  refine ⟨here, ⟨j, known, .inr ⟨error, ceased⟩⟩, fun lost => carries ?_⟩
  obtain ⟨k, reported⟩ := Option.ne_none_iff_exists'.mp lost
  obtain ⟨-, error', known', mark⟩ := here.lost k reported
  obtain rfl := Option.some.inj (known.symm.trans known')
  obtain rfl : error' = error := by simpa using ceased
  exact mark

end answers

/-! ## What an attempt finds out -/

section attempts

variable {s : Service} {n : Nat}

theorem stable_at (s s' : Service) (here : At sql id n s) (moves : (Service.env sql).drift s s') :
    At sql id n s' := here.drift moves

/-- The fence's text has two hyphens, and the deadline's one. -/
theorem deadlineMsg_transient (fresh : FreshIds id) (n : Nat) : Transient (deadlineMsg (id n)) := by
  obtain ⟨digits, hex, shape⟩ := fresh.shape n
  refine decide_eq_false fun held => ?_
  have plain : digits.count '-' = 0 :=
    List.count_eq_zero.mpr fun mem => absurd (hex '-' mem) (by decide)
  have front : "bigquery job ".toList.count '-' = 0 := by decide
  have name : "apitap_cdc_".toList.count '-' = 0 := by decide
  have middle : " exceeded 30 minutes and did not settle after a cancel ".toList.count '-' = 0 := by
    decide
  have back : ("request — its fate is unknown; the window must not be treated as " ++
      "committed-nothing").toList.count '-' = 1 := by decide
  have mark : lostMark.toList.count '-' = 2 := by decide
  have most := held.sublist.count_le '-'
  have text : (deadlineMsg (id n)).toList =
      "bigquery job ".toList ++ ("apitap_cdc_".toList ++ digits) ++
        " exceeded 30 minutes and did not settle after a cancel ".toList ++
        ("request — its fate is unknown; the window must not be treated as " ++
          "committed-nothing").toList := by
    rw [← shape, ← String.toList_append, ← String.toList_append, ← String.toList_append]
    exact congrArg String.toList (String.append_assoc ..)
  rw [text, List.count_append, List.count_append, List.count_append, List.count_append] at most
  omega

/-- The id's job is this script's own. -/
def Mine (sql : String) (id : Nat → String) (n : Nat) (s : Service) : Prop :=
  ∃ state, s.jobs (id n) = some ⟨sql, state⟩

theorem Mine.drift {s' : Service} (mine : Mine sql id n s) (moves : s.Drift s') :
    Mine sql id n s' := by
  obtain ⟨state, known⟩ := mine
  obtain ⟨⟨_, state'⟩, known', rfl, -⟩ := Drift.job moves known
  exact ⟨state', known'⟩

theorem transport_judged (here : At sql id n s) {m : String} (transient : Transient m) :
    Judged sql id n (.error (.transport m)) s := ⟨here, transient⟩

/-- A GET of the id's own job. -/
theorem meets_get {α : Type} {Q : α → Service → Prop} {k : Answer → Client α}
    (here : At sql id n s)
    (onError : ∀ m s', At sql id n s' → Transient m →
      (Service.env sql).Meets (Safe sql id) Q (k (.error m)) s')
    (onJob : ∀ j s', At sql id n s' → (Mine sql id n s → j.sql = sql) → s'.jobs (id n) = some j →
      (Service.env sql).Meets (Safe sql id) Q (k (.job j.sql j.state)) s') :
    (Service.env sql).Meets (Safe sql id) Q (.call (.get (id n)) k) s := by
  refine .call (P := fun s' => At sql id n s' ∧ (Mine sql id n s → Mine sql id n s'))
    (fun _ _ here moves => ⟨here.1.drift moves, fun mine => (here.2 mine).drift moves⟩)
      ⟨here, fun x => x⟩
    (fun _ here => here.1.safe) fun s ans s' here served => ?_
  have after := here.1.served served nofun fun i same => (Call.get.inj same).symm
  cases served with
  | failed transient _ => exact onError _ _ after transient
  | @job _ j known =>
      refine onJob j _ after (fun mine => ?_) ((seen_jobs _ _).symm ▸ known)
      obtain ⟨state, known'⟩ := here.2 mine
      obtain rfl := Option.some.inj (known.symm.trans known')
      rfl

/-- What polling for a verdict leaves: the verdict, or nothing new. -/
def Polled (sql : String) (id : Nat → String) (n : Nat) : Option Verdict → Service → Prop
  | none, s => At sql id n s ∧ Mine sql id n s
  | some verdict, s => Judged sql id n verdict s

theorem jobFailed_mentions (i : String) {error : String} (mark : mentions error lostMark = true) :
    mentions s!"bigquery job {i} failed: {error}" lostMark = true :=
  append_mentions mark

theorem jobCancelled_mentions (i : String) {error : String}
    (mark : mentions error lostMark = true) :
    mentions s!"bigquery job {i} failed (cancelled after 30 minutes): {error}" lostMark = true :=
  append_mentions mark

theorem committed_judged {j : Job} (here : At sql id n s) (known : s.jobs (id n) = some j)
    (mine : j.sql = sql) (done : j.state = .done none) : Judged sql id n (.ok ()) s := by
  obtain ⟨text, state⟩ := j
  obtain rfl := mine
  obtain rfl := done
  exact ⟨here, known⟩

theorem meets_pollDone (here : At sql id n s) (mine : Mine sql id n s) (tries : Nat) :
    (Service.env sql).Meets (Safe sql id) (Polled sql id n) (pollDone (id n) tries) s := by
  induction tries generalizing s with
  | zero =>
      exact .pure (P := fun s => At sql id n s ∧ Mine sql id n s)
        (fun _ _ here moves => ⟨here.1.drift moves, here.2.drift moves⟩) ⟨here, mine⟩
        (fun _ here => here.1.safe) fun _ here => here
  | succ tries ih =>
      refine meets_get here (fun m s' after transient => ?_) fun j s' after own known => ?_
      · exact (transport_judged after transient).pure.mono fun _ _ judged => judged
      · obtain ⟨text, state⟩ := j
        obtain rfl : text = sql := own mine
        cases state with
        | running => exact ih after ⟨.running, known⟩
        | done result =>
            cases result with
            | none =>
                exact (committed_judged after known rfl rfl).pure.mono fun _ _ judged => judged
            | some error =>
                have judged := Judged.failed after known rfl (jobFailed_mentions (id n))
                exact judged.pure.mono fun _ _ judged => judged

theorem meets_settle (fresh : FreshIds id) (here : At sql id n s) (mine : Mine sql id n s)
    (tries : Nat) :
    (Service.env sql).Meets (Safe sql id) (Judged sql id n) (settle (id n) tries) s := by
  induction tries generalizing s with
  | zero => exact (transport_judged here (deadlineMsg_transient fresh n)).pure
  | succ tries ih =>
      refine meets_get here (fun m s' after _ => ?_) fun j s' after own known => ?_
      · exact (transport_judged after (deadlineMsg_transient fresh n)).pure
      · obtain ⟨text, state⟩ := j
        obtain rfl : text = sql := own mine
        cases state with
        | running => exact ih after ⟨.running, known⟩
        | done result =>
            cases result with
            | none => exact (committed_judged after known rfl rfl).pure
            | some error => exact (Judged.failed after known rfl
                (jobCancelled_mentions (id n))).pure

theorem meets_poll (fresh : FreshIds id) (here : At sql id n s) (mine : Mine sql id n s) :
    (Service.env sql).Meets (Safe sql id) (Judged sql id n) (poll (id n)) s := by
  refine (meets_pollDone here mine 900).bind fun verdict s polled => ?_
  cases verdict with
  | some verdict => exact Judged.pure polled
  | none =>
      refine .call (P := fun s => At sql id n s ∧ Mine sql id n s)
        (fun _ _ here moves => ⟨here.1.drift moves, here.2.drift moves⟩) polled
        (fun _ here => here.1.safe) fun s ans s' here served => ?_
      have after := here.1.served served nofun nofun
      refine meets_settle fresh after ?_ 30
      cases served with
      | failed | cancelled => exact here.2

/-- The job a 409 names, when it is this script's. -/
theorem meets_adopt (fresh : FreshIds id) (here : At sql id n s) :
    (Service.env sql).Meets (Safe sql id) (Judged sql id n) (adopt (id n) sql) s := by
  refine meets_get here (fun m s' after transient => ?_) fun j s' after _ known => ?_
  · exact (transport_judged after transient).pure
  · obtain ⟨text, state⟩ := j
    show (Service.env sql).Meets _ _ (if text = sql then poll (id n) else _) s'
    by_cases mine : text = sql
    · rw [if_pos mine]
      exact meets_poll fresh after ⟨state, mine ▸ known⟩
    · rw [if_neg mine]
      refine Judged.pure ⟨after, ⟨_, known, .inl mine⟩, fun lost => ?_⟩
      -- a lost lease is only ever reported of a job that is this script's
      obtain ⟨k, reported⟩ := Option.ne_none_iff_exists'.mp lost
      obtain ⟨-, error, own, -⟩ := after.lost k reported
      exact absurd (congrArg Job.sql (Option.some.inj (known.symm.trans own))) mine

/-- A POST under the id starts no job late, and touches no other id. -/
theorem At.sent (here : At sql id n s) : At sql id n (s.sent (id n)) := by
  refine ⟨here.dead, here.untouched, ?_, here.lost⟩
  rw [Service.sent, here.punctual, Bool.false_or]
  cases lost : s.lost with
  | none => rfl
  | some j => simp [(here.lost j lost).1]

theorem At.start (fresh : FreshIds id) (here : At sql id n s) (unknown : s.jobs (id n) = none) :
    At sql id n (s.start (id n) sql) := by
  have other {m : Nat} (away : m ≠ n) : (s.start (id n) sql).jobs (id m) = s.jobs (id m) :=
    if_neg fun same => away (fresh.distinct m n same)
  refine ⟨fun m lt => ?_, fun m gt => ?_, here.punctual, fun j lost => ?_⟩
  · rw [Dead, other (Nat.ne_of_lt lt)]
    exact here.dead m lt
  · rw [Untouched, other (Nat.ne_of_gt gt)]
    exact here.untouched m gt
  · obtain ⟨-, error, known, -⟩ := here.lost j lost
    rw [unknown] at known
    nomatch known

/-- A POST under the id. -/
theorem meets_submit (fresh : FreshIds id) (here : At sql id n s) :
    (Service.env sql).Meets (Safe sql id) (Judged sql id n) (submit sql (id n)) s := by
  refine .call stable_at here (fun _ here => here.safe) fun s ans s' here served => ?_
  -- an error that is not a 409 is no verdict; a 409 looks the job up
  have onError {m : String} {s' : Service} (after : At sql id n s') (transient : Transient m) :
      (Service.env sql).Meets (Safe sql id) (Judged sql id n)
        (if mentions m "bigquery 409 " then adopt (id n) sql
          else .pure (.error (.transport m))) s' := by
    split
    · exact meets_adopt fresh after
    · exact (transport_judged after transient).pure
  cases served with
  | failed _ asked => exact absurd rfl (asked _ _)
  | accepted unknown =>
      exact meets_poll fresh (here.sent.start fresh unknown) ⟨.running, if_pos rfl⟩
  | unheard unknown transient => exact onError (here.sent.start fresh unknown) transient
  | refused transient =>
      refine onError ⟨here.dead, fun m gt => ⟨(here.untouched m gt).1, ?_⟩, here.sent.punctual,
        here.lost⟩ transient
      intro p mem
      obtain rfl | mem := List.mem_cons.mp mem
      · exact fun same => Nat.ne_of_gt gt (fresh.distinct m n same.symm)
      · exact (here.untouched m gt).2 p mem

/-- One attempt at the script's job. -/
theorem meets_runJob (fresh : FreshIds id) (here : At sql id n s) :
    (Service.env sql).Meets (Safe sql id) (Judged sql id n) (runJob sql (id n)) s := by
  refine .call stable_at here (fun _ here => here.safe) fun s ans s' here served => ?_
  have after := here.served served nofun nofun
  cases served with
  | located => exact meets_submit fresh after
  | failed transient => exact (transport_judged after transient).pure

/-! ## The script -/

/-- A failure the caller takes for definite. -/
def Outcome.definite : Outcome → Bool
  | .failed _ definite => definite
  | .noLongerHolds => true
  | .done => false

/-- What a script's outcome says of its jobs. -/
def Concluded (sql : String) (id : Nat → String) (outcome : Outcome) (s : Service) : Prop :=
  (outcome = .done → ∃ n, Committed sql id s n) ∧ (outcome.definite = true → Over sql id s)

/-- An id whose job is over: none of the script's jobs can commit. -/
theorem At.ceased (here : At sql id n s) (dead : Dead sql id s n) : Over sql id s := by
  intro m
  obtain before | same | after := Nat.lt_trichotomy m n
  · exact .inl (here.dead m before)
  · exact .inl (same ▸ dead)
  · exact .inr (here.untouched m after)

theorem scriptErrorClass_lost {m : String} :
    scriptErrorClass m = .lost ↔ mentions m lostMark = true := by
  rw [scriptErrorClass]
  split
  · exact iff_of_true rfl (by assumption)
  · refine iff_of_false ?_ (by assumption)
    split <;> nofun

theorem nextTry_newId {e : ScriptErr} {attempt : Nat} (retry : nextTry e attempt = some .newId) :
    ∃ m, e = .failed m ∧ scriptErrorClass m = .retry := by
  unfold nextTry at retry
  split at retry
  · nomatch retry
  · cases e with
    | transport m =>
        dsimp only at retry
        split at retry
        · nomatch retry
        · split at retry <;> nomatch retry
        · nomatch retry
    | failed m =>
        dsimp only at retry
        split at retry
        · exact ⟨m, rfl, by assumption⟩
        · nomatch retry

theorem concluded_pure {outcome : Outcome} (here : At sql id n s)
    (concluded : Concluded sql id outcome s) :
    (Service.env sql).Meets (Safe sql id) (Concluded sql id) (.pure outcome) s := by
  refine .pure (P := fun s => At sql id n s ∧ Concluded sql id outcome s)
    (fun s s' here moves => ⟨here.1.drift moves, fun done => ?_, fun definite =>
      ?_⟩) ⟨here, concluded⟩
    (fun _ here => here.1.safe) fun _ here => here.2
  · obtain ⟨m, committed⟩ := here.2.1 done
    exact ⟨m, committed.drift moves⟩
  · exact (here.2.2 definite).drift moves

theorem meets_retries (fresh : FreshIds id) (here : At sql id n s) (fuel attempt : Nat) :
    (Service.env sql).Meets (Safe sql id) (Concluded sql id) (retries sql id fuel n attempt) s := by
  induction fuel generalizing n attempt s with
  | zero => exact concluded_pure here ⟨nofun, nofun⟩
  | succ fuel ih =>
      refine (meets_runJob fresh here).bind fun verdict s judged => ?_
      obtain ⟨here, known⟩ := judged
      match verdict with
      | .ok () => exact concluded_pure here ⟨fun _ => ⟨n, known⟩, nofun⟩
      | .error e =>
          show (Service.env sql).Meets _ _ (if scriptErrorClass e.message = .lost then _ else _) s
          by_cases lost : scriptErrorClass e.message = .lost
          · rw [if_pos lost]
            refine concluded_pure here ⟨nofun, fun _ => ?_⟩
            have mark := scriptErrorClass_lost.mp lost
            cases e with
            | transport m => exact absurd mark (by rw [ScriptErr.message, known]; nofun)
            | failed m => exact here.ceased known.1
          · rw [if_neg lost]
            cases retry : nextTry e attempt with
            | none =>
                refine concluded_pure here ⟨nofun, fun definite => ?_⟩
                cases e with
                | transport m => nomatch definite
                | failed m => exact here.ceased known.1
            | some next =>
                cases next with
                | sameId => exact ih here (attempt + 1)
                | newId =>
                    obtain ⟨m, rfl, -⟩ := nextTry_newId retry
                    have unlost : s.lost = none := by
                      by_contra reported
                      exact lost (scriptErrorClass_lost.mpr (known.2 reported))
                    refine ih ⟨fun k lt => ?_, fun k gt => here.untouched k (by omega),
                      here.punctual,
                      fun j reported => ?_⟩ (attempt + 1)
                    · obtain before | same := Nat.lt_succ_iff_lt_or_eq.mp lt
                      · exact here.dead k before
                      · exact same ▸ known.1
                    · rw [unlost] at reported
                      nomatch reported

end attempts

/-- A BigQuery script takes effect at most once. Whatever is lost or delayed on the
way: among the jobs one call submits at most one commits, it says done only of a
script that committed, it calls a failure definite only when none of its jobs
committed or can still commit, and after a lost lease it submits no further job. -/
theorem cdcScript_at_most_once {s₀ s : Service} {p : Client Outcome} (fresh : FreshIds id)
    (unused : ∀ n, Untouched sql id s₀ n) (quiet : s₀.lost = none) (punctual : s₀.late = false)
    (run : (Service.env sql).Reaches (s₀, cdcScriptOutcome sql id) (s, p)) :
    s.late = false ∧
    (∀ m n, Committed sql id s m → Committed sql id s n → m = n) ∧
    (p = .pure .done → ∃ n, Committed sql id s n) ∧
    ∀ outcome, p = .pure outcome → outcome.definite = true →
      ∀ s', (Service.env sql).Drifts s s' → ∀ n, ¬ Committed sql id s' n := by
  have here : At sql id 0 s₀ :=
    ⟨fun m lt => absurd lt (Nat.not_lt_zero m), fun m _ => unused m, punctual, fun j lost => by
      rw [quiet] at lost
      nomatch lost⟩
  obtain ⟨safe, concluded⟩ := (meets_retries fresh here 6 0).reaches run
  refine ⟨safe.1, safe.2, fun done => (concluded _ done s .refl).1 rfl, ?_⟩
  intro outcome result definite s' drifts n
  exact ((concluded outcome result s' drifts).2 definite n).elim Dead.not_committed
    Untouched.not_committed

end

/-- Ids told apart by their length. -/
def idOf (n : Nat) : String := String.ofList ("apitap_cdc_".toList ++ List.replicate n '0')

theorem idOf_fresh : FreshIds idOf := by
  refine ⟨fun m n same => ?_, fun n => ⟨List.replicate n '0', fun d mem => ?_, ?_⟩⟩
  · have digits := List.append_cancel_left (String.ofList_injective same)
    have long := congrArg List.length digits
    simpa only [List.length_replicate] using long
  · obtain ⟨-, rfl⟩ := List.mem_replicate.mp mem
    decide
  · exact String.toList_ofList

/-- A service that has seen no job. -/
def Service.idle : Service := ⟨fun _ => none, [], none, false⟩

/-- The job starts and the answer is lost; sent again, its id is known, and it is adopted. -/
theorem adopted_run (id : Nat → String) :
    ∃ s, (Service.env "MERGE").Reaches (.idle, cdcScriptOutcome "MERGE" id) (s, .pure .done) :=
  ⟨_, .head (.serve (.located "EU")) <|
    .head (.serve (.unheard rfl (m := "error sending request") rfl)) <|
    .head (.serve (.located "EU")) <|
    .head (.serve (.refused (m := "bigquery 409 Already Exists") rfl)) <|
    .head (.serve (.job (j := ⟨"MERGE", .running⟩) (if_pos rfl))) <|
    .head (.serve (.job (j := ⟨"MERGE", .running⟩) (if_pos rfl))) <|
    .head (.drift (.finish none (if_pos rfl))) <|
    .head (.serve (.job (j := ⟨"MERGE", .done none⟩) (if_pos rfl))) .refl⟩

theorem cdcScript_commits :
    ∃ s, (Service.env "MERGE").Reaches (.idle, cdcScriptOutcome "MERGE" idOf) (s, .pure .done) ∧
      ∃ n, Committed "MERGE" idOf s n := by
  obtain ⟨s, run⟩ := adopted_run idOf
  have untouched (n : Nat) : Untouched "MERGE" idOf .idle n := ⟨nofun, nofun⟩
  exact ⟨s, run, (cdcScript_at_most_once idOf_fresh untouched rfl rfl run).2.2.1 rfl⟩

end Apitap.BigQuery
