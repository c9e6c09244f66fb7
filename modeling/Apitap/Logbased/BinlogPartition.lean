import Apitap.Logbased.BinlogInStep

/-!
# Binlog windows partition the committed groups

Every run dumps from the end of the last recorded window, drains in step with the server, and
hands on a trail of windows; a kill throws away what was not recorded, and the next run drains
it again. Each end of the trail is a point a dump may begin at.
-/

namespace Apitap

open Foundation (map_eq_ok)

namespace Mysource

variable {β W : Type} [WindowBody W] [DrainBody β W]

/-! ### One turn -/

section turn

variable [Unicode] {log : Binlog} {startMark : Nat} {before chunk : List Group}
variable {dump dump' : Dump} {d d' : Drain β} {p : DrainCall} {moment : Moment} {feed : Feed}

/-- The event a dump sends finds the drain in step, and leaves it so. -/
theorem InStep.sent {ev : Event} {place : Nat} {stop : Bool}
    (inStep : InStep log startMark before dump.master dump.unread d chunk dump.master.ddls)
    (sent : dump.send? log feed = some (some (ev, place), dump'))
    (low : d.takes ev = true → place < 2 ^ 32) (ran : d.event p moment ev = .ok (d', stop)) :
    Kept log startMark before dump'.master dump'.unread d' stop := by
  cases feed with
  | entry =>
      dsimp only [Dump.send?] at sent
      split at sent
      · cases sent
      · rename_i e rest unread
        obtain ⟨m, stepped, is⟩ := Option.map_eq_some_iff.mp sent
        cases is
        rw [unread] at inStep
        exact inStep.event low stepped ran
  | restate =>
      cases sent
      simp only [Drain.event, ← inStep.follows.file, ite_self] at ran
      cases ran
      exact ⟨chunk, _, inStep, fun _ => rfl, fun wrong => (by cases wrong)⟩
  | describe =>
      cases sent
      cases ran
      exact ⟨chunk, _, inStep, fun _ => rfl, fun wrong => (by cases wrong)⟩
  | heartbeat code =>
      simp only [Dump.send?] at sent
      split at sent
      · rename_i beats
        cases sent
        have opens : isTxStart code = false := by
          obtain ⟨rfl | rfl, -⟩ := beats <;> rfl
        have skips : skippable code = true := by
          obtain ⟨rfl | rfl, -⟩ := beats <;> rfl
        simp only [Drain.event, opens, skips, Bool.false_eq_true, if_false, if_true] at ran
        refine inStep.skip (fun free some_pos further => low ?_) beats.2 (Except.ok.inj ran)
        simp only [Drain.takes, opens, skips, free]
        exact decide_eq_true ⟨some_pos, further⟩
      · cases sent
  | finish => cases sent

/-- A turn leaves the drain in step with what the dump has sent. A drain that stops before the
dump ends has nothing buffered. -/
theorem InStep.turn {ev : Option (Event × Nat)} {read stop : Bool}
    (inStep : InStep log startMark before dump.master dump.unread d chunk dump.master.ddls)
    (sent : dump.send? log feed = some (ev, dump'))
    (low : ∀ ev' place, ev = some (ev', place) → d.takes ev' = true → place < 2 ^ 32)
    (ran : d.turn p moment (ev.map Prod.fst) = .ok (d', read, stop)) :
    ∃ chunk' era, InStep log startMark before (if read then dump' else dump).master
        (if read then dump' else dump).unread d' chunk' era ∧
      (stop = false → read = true ∧ era = dump'.master.ddls) ∧
      (stop = true → ev = none ∨ d'.txBuf = []) := by
  unfold Drain.turn at ran
  split at ran
  · rename_i free
    cases ran
    exact ⟨chunk, _, inStep, fun wrong => (by cases wrong), fun _ => .inr free.2⟩
  · split at ran
    · cases ran
    · cases ev with
      | none =>
          cases ran
          exact ⟨chunk, _, inStep, fun wrong => (by cases wrong), fun _ => .inl rfl⟩
      | some ev =>
          obtain ⟨⟨d₁, stop₁⟩, done, is⟩ := map_eq_ok.mp ran
          cases is
          obtain ⟨chunk', era, inStep', era_is, free⟩ := inStep.sent sent (low _ _ rfl) done
          exact ⟨chunk', era, inStep', fun goes => ⟨rfl, era_is goes⟩, fun stops =>
            .inr (free stops)⟩

end turn

/-! ### Trails of windows -/

section trail

variable [Unicode] (β) {log : Binlog} {mark mark' mark'' : Nat} {o : DrainOutcome W}
variable {os os' : List (DrainOutcome W)} {before before' before'' chunk : List Group}

/-- A window from a watermark on, and the groups it hands over: it ends where a dump may
begin. -/
structure Leg (log : Binlog) (mark : Nat) (before : List Group) (o : DrainOutcome W)
    (chunk : List Group) : Prop where
  start : o.id.start = mark
  forward : mark ≤ o.id.end
  hands : o.Hands β (chunk.map Group.tx)
  landed_le : ∀ g ∈ chunk, g.tx.commit ≤ o.id.end
  era : ∀ g ∈ chunk, ∀ g' ∈ chunk, g.era = g'.era
  rests : log.Rests o.id.end (before ++ chunk)

/-- Windows from one watermark to another, and what was committed up to each. -/
inductive Trail (log : Binlog) :
    Nat → List Group → List (DrainOutcome W) → Nat → List Group → Prop
  | nil (mark : Nat) (before : List Group) : Trail log mark before [] mark before
  | cons {mark mark' : Nat} {before before' chunk : List Group} {o : DrainOutcome W}
      {os : List (DrainOutcome W)} (leg : Leg β log mark before o chunk)
      (rest : Trail log o.id.end (before ++ chunk) os mark' before') :
      Trail log mark before (o :: os) mark' before'

variable {β}

theorem Trail.append (first : Trail β log mark before os mark' before')
    (second : Trail β log mark' before' os' mark'' before'') :
    Trail β log mark before (os ++ os') mark'' before'' := by
  induction first with
  | nil => exact second
  | cons leg rest ih => exact .cons leg (ih second)

theorem Trail.singleton (leg : Leg β log mark before o chunk) :
    Trail β log mark before [o] o.id.end (before ++ chunk) := .cons leg (.nil _ _)

/-- A trail ends where a dump may begin, if it begins there. -/
theorem Trail.rests (trail : Trail β log mark before os mark' before')
    (rests : log.Rests mark before) : log.Rests mark' before' := by
  induction trail with
  | nil => exact rests
  | cons leg rest ih => exact ih leg.rests

/-- A trail cuts what its server commits. -/
theorem Trail.cuts {final : Master} (trail : Trail β log mark before os mark' before')
    (legal : log.master.run? log.stem log.tracked log.entries = some final) {groups : List Group}
    (committed : final.committed = before ++ groups) :
    ∃ later, Cuts β mark os groups later := by
  induction trail generalizing groups with
  | nil mark => exact ⟨groups, .nil mark groups⟩
  | cons leg rest ih =>
      obtain ⟨behind, is, above⟩ := leg.rests.later legal
      have split := committed.symm.trans is
      rw [List.append_assoc, List.append_cancel_left_eq] at split
      obtain ⟨later, cuts⟩ := ih is
      rw [split]
      exact ⟨later, .cons leg.start leg.forward leg.hands leg.landed_le leg.era above cuts⟩

end trail

/-! ### Runs -/

/-- The sealed bodies are those the drain holds. -/
theorem keys_of_outcome {d : Drain β} {startMark : Nat} {o : DrainOutcome W}
    (ran : d.outcome startMark = .ok o) (nothing : o.bodies = []) : d.bodies.keys = [] := by
  obtain ⟨bodies, sealed, rfl⟩ := map_eq_ok.mp ran
  obtain ⟨names, -⟩ := Apitap.Drain.mem_sealBodies sealed
  obtain rfl : bodies = [] := nothing
  rw [List.map_nil, List.map_map] at names
  exact names.symm

section runs

variable [Unicode] {log : Binlog} {startMark : Nat} {before chunk : List Group} {m final : Master}
variable {unread : List Entry} {d : Drain β} {era maxBufBytes txLimit : Nat} {s s' : Sys β W}

/-- A window that ends with nothing buffered leaves the next one in step. -/
theorem InStep.again (inStep : InStep log startMark before m unread d chunk era)
    (free : d.txBuf = []) :
    InStep log d.endMark (before ++ chunk) m unread (.start d.sess d.endMark : Drain β) []
      m.ddls where
  reads := inStep.reads
  follows := inStep.follows
  buffered := by
    rw [← inStep.buffered, free]
    rfl
  held := .empty
  committed := by rw [inStep.committed, List.append_nil]
  era g mem := by cases mem
  rests := by
    rw [List.append_nil]
    exact inStep.rests
  start_le := Nat.le_refl _
  landed_le g mem := by cases mem
  end_file := inStep.end_file
  end_le := inStep.end_le

/-- The window a drain in step returns. -/
theorem InStep.leg {o : DrainOutcome W}
    (inStep : InStep log startMark before m unread d chunk era)
    (ran : d.outcome startMark = .ok o) : Leg β log startMark before o chunk := by
  obtain ⟨hands, id⟩ := inStep.held.hands ran
  refine ⟨?_, ?_, hands, ?_, fun g mem g' mem' => ?_, ?_⟩
  · rw [id]
  · rw [id]
    exact inStep.start_le
  · rw [id]
    exact inStep.landed_le
  · rw [inStep.era g mem, inStep.era g' mem']
  · rw [id]
    exact inStep.rests

/-- A run under way goes on from the last window's end. -/
def Session.Goes (log : Binlog) (mark : Nat) (before : List Group) (ss : Session β) : Prop :=
  ss.watermark = mark ∧ ∃ chunk, InStep log mark before ss.dump.master ss.dump.unread ss.drain
    chunk ss.dump.master.ddls

/-- The windows recorded, those drained and not recorded, and the run under way follow on each
other. -/
def Sys.Tracks (log : Binlog) (s : Sys β W) : Prop :=
  ∃ before mark after, Trail β log log.mark [] s.recorded s.mark before ∧
    Trail β log s.mark before s.queue mark after ∧ ∀ ss ∈ s.session, ss.Goes log mark after

theorem Sys.Tracks.start : (Sys.start log : Sys β W).Tracks log :=
  ⟨[], log.mark, [], .nil _ _, .nil _ _, fun ss mem => (by cases mem)⟩

/-- A run that ends leaves its windows. -/
theorem Sys.Tracks.over (tracks : s.Tracks log) :
    ({ s with session := none } : Sys β W).Tracks log := by
  obtain ⟨before, mark, after, recorded, queue, -⟩ := tracks
  exact ⟨before, mark, after, recorded, queue, fun ss mem => (by cases mem)⟩

/-- A fresh dump is in step. -/
theorem Sys.Tracks.connect (tracks : s.Tracks log)
    (legal : log.master.run? log.stem log.tracked log.entries = some final) {stopLine : Nat}
    (stepped : s.connect? log stopLine = some s') : s'.Tracks log := by
  unfold Sys.connect? at stepped
  dsimp only at stepped
  split at stepped
  · rename_i allowed
    obtain ⟨m, ran, stepped⟩ := Option.bind_eq_some_iff.mp stepped
    split at stepped
    · cases stepped
      obtain ⟨before, mark, after, recorded, queue, -⟩ := tracks
      have rests := recorded.rests .start
      obtain ⟨reads, file, mark_is, low, bound, pending, committed⟩ :=
        rests.connect legal rfl rfl ran
      rw [allowed.2.1] at queue
      cases queue
      refine ⟨before, s.mark, before, recorded, ?_, fun ss mem => ?_⟩
      · rw [allowed.2.1]
        exact .nil _ _
      · cases mem
        refine ⟨rfl, [], reads, ⟨?_, rfl, fun id q there => ?_⟩, pending.symm, .empty, ?_,
          fun g mem => (by cases mem), ?_, Nat.le_refl _, fun g mem => (by cases mem), ?_,
          Nat.le_of_eq mark_is.symm⟩
        · exact congrArg (fileName log.stem) file.symm
        · rw [bound] at there
          cases there
        · rw [committed, List.append_nil]
        · rw [List.append_nil]
          exact rests
        · change s.mark < (m.file + 1) * 2 ^ 32
          rw [← mark_is, Master.mark]
          omega
    · cases stepped
  · cases stepped

/-- Nothing landed in a window without a body. -/
theorem InStep.empty (inStep : InStep log startMark before m unread d chunk era)
    (nothing : d.bodies.keys = []) : chunk = [] := by
  refine nil_of_opsOf (fun g mem => ?_) (inStep.held.nothing nothing)
  apply inStep.reads.some_ops
  rw [inStep.committed]
  exact List.mem_append_right _ mem

/-- A window that closes is the trail's next, and the run goes on behind it. -/
theorem InStep.close {after : List Group} {dump : Dump} {ss : Session β} {ceased : Bool}
    {look : After} (inStep : InStep log ss.watermark after dump.master dump.unread d chunk era)
    (recorded : Trail β log log.mark [] s.recorded s.mark before)
    (queue : Trail β log s.mark before s.queue ss.watermark after)
    (free : ceased = false → d.txBuf = []) : (s.close ss dump d ceased look).Tracks log := by
  unfold Sys.close
  split
  · exact ⟨before, _, after, recorded, queue, fun ss mem => (by cases mem)⟩
  · rename_i o ran
    have leg := inStep.leg ran
    have id := (inStep.held.hands ran).2
    dsimp only
    have sent : ∀ caughtUp, caughtUp = (decide (o.id.end = ss.watermark) && o.bodies.isEmpty) →
        Trail β log s.mark before (if caughtUp then s else { s with queue := s.queue ++ [o] }).queue
          o.id.end (after ++ chunk) := by
      intro caughtUp is
      cases caughtUp with
      | true =>
          have both := Bool.and_eq_true_iff.mp is.symm
          have nothing := inStep.empty (keys_of_outcome ran (List.isEmpty_iff.mp both.2))
          rw [of_decide_eq_true both.1, nothing, List.append_nil]
          exact queue
      | false => exact queue.append (.singleton leg)
    have queue' := sent _ rfl
    generalize is : (if (decide (o.id.end = ss.watermark) && o.bodies.isEmpty) = true then s
      else { s with queue := s.queue ++ [o] }) = s₁ at queue'
    have same : s₁.recorded = s.recorded ∧ s₁.mark = s.mark := by
      subst is
      split <;> exact ⟨rfl, rfl⟩
    split
    · rename_i stopLine goes
      refine ⟨before, o.id.end, after ++ chunk, ?_, ?_, fun ss mem => ?_⟩
      · rw [same.1, same.2]
        exact recorded
      · rw [same.2]
        exact queue'
      · cases mem
        have again := inStep.again (free rfl)
        refine ⟨rfl, [], ?_⟩
        rw [id]
        exact again
    · refine ⟨before, o.id.end, after ++ chunk, ?_, ?_, fun ss mem => (by cases mem)⟩
      · rw [same.1, same.2]
        exact recorded
      · rw [same.2]
        exact queue'

/-- A turn keeps the trail, if the drain moves its end only to where 32 bits say. -/
theorem Sys.Tracks.turn (tracks : s.Tracks log) {moment : Moment} {feed : Feed} {look : After}
    (low : Addressable log s (.turn moment feed look))
    (stepped : s.turn? log maxBufBytes txLimit moment feed look = some s') : s'.Tracks log := by
  obtain ⟨before, mark, after, recorded, queue, under⟩ := id tracks
  obtain ⟨ss, there, stepped⟩ := Option.bind_eq_some_iff.mp stepped
  obtain ⟨⟨ev, dump⟩, sent, is⟩ := Option.map_eq_some_iff.mp stepped
  obtain ⟨rfl, chunk, inStep⟩ := under ss there
  have low : ∀ ev' place, ev = some (ev', place) → ss.drain.takes ev' = true → place < 2 ^ 32 :=
    fun ev' place is => low ss there _ sent (ev', place) is
  dsimp only at is
  split at is
  · subst is
    exact tracks.over
  · rename_i d read ran
    subst is
    obtain ⟨chunk', era, inStep', goes, -⟩ := inStep.turn sent low ran
    obtain ⟨rfl, rfl⟩ := goes rfl
    refine ⟨before, _, after, recorded, queue, fun ss' mem => ?_⟩
    cases mem
    exact ⟨rfl, chunk', inStep'⟩
  · rename_i d read ran
    subst is
    obtain ⟨chunk', era, inStep', -, free⟩ := inStep.turn sent low ran
    refine inStep'.close recorded queue fun goes => (free rfl).resolve_left fun drained => ?_
    rw [drained] at goes
    cases goes

theorem Sys.Tracks.apply (tracks : s.Tracks log)
    (stepped : s.step? log maxBufBytes txLimit .apply = some s') : s'.Tracks log := by
  obtain ⟨before, mark, after, recorded, queue, under⟩ := tracks
  dsimp only [Sys.step?] at stepped
  split at stepped
  · cases stepped
  · rename_i o rest waiting
    cases stepped
    rw [waiting] at queue
    cases queue with
    | cons leg rest =>
        exact ⟨_, mark, after, recorded.append (.singleton leg), rest, under⟩

/-- One step keeps the trail. -/
theorem Sys.Tracks.step (tracks : s.Tracks log)
    (legal : log.master.run? log.stem log.tracked log.entries = some final) {a : Act}
    (low : Addressable log s a) (stepped : s.step? log maxBufBytes txLimit a = some s') :
    s'.Tracks log := by
  cases a with
  | connect stopLine => exact tracks.connect legal stepped
  | turn moment feed look => exact tracks.turn low stepped
  | apply => exact tracks.apply stepped
  | kill =>
      cases stepped
      obtain ⟨before, mark, after, recorded, -, -⟩ := tracks
      exact ⟨before, _, before, recorded, .nil _ _, fun ss mem => (by cases mem)⟩

/-- Every state the runs reach tracks the log. -/
theorem Reach.tracks (reached : Reach log maxBufBytes txLimit (Addressable log) s)
    (legal : log.master.run? log.stem log.tracked log.entries = some final) : s.Tracks log := by
  induction reached with
  | start => exact .start
  | step reached meets stepped ih => exact ih.step legal meets stepped

end runs

end Mysource

end Apitap
