import Apitap.Logbased.ReplayOnce

/-!
# The memo asks enough

A run knows the newest marker and the highest stamp that its first look found. Rows at a
later window's start can only have been there at that look: the run itself writes at the
starts it has committed, which lie before it, and whatever a failed attempt left is looked
at again. So a query that the memo skips would have found nothing.
-/

namespace Apitap

open Foundation (bind_eq_ok)

variable {ε : Type}

/-- A run over one changelog table: its lane, and the start of the last window that committed. -/
structure MemoRun (ε : Type) where
  lane : Lane ε
  last : Option Nat

namespace MemoRun

/-- The starts of windows increase behind a committed one. -/
def Later (r : MemoRun ε) (start : Nat) : Prop := ∀ s, r.last = some s → s < start

/-- What one window of a run comes to. -/
inductive Step (table : String) (r : MemoRun ε) : MemoRun ε → Prop
  /-- The attempt failed, whatever it left, and is settled as failed. -/
  | failed {lane : Lane ε} (forgot : lane.memo = r.lane.memo.forget) :
      Step table r { r with lane := lane }
  /-- Every write of the plan, the watermark, and the plan settled as committed. -/
  | committed {id : WindowId} {events : List ε} {plan : ReplayPlan} (later : r.Later id.start)
      (planned : r.lane.planOf table id events.length = .ok plan) :
      Step table r
        { lane := { r.lane.writes (changelogWrites plan events) with
            watermark := plan.watermark
            memo := r.lane.consult.committed plan }
          last := some id.start }

end MemoRun

/-! ## What a plan says -/

theorem Replay.mark_of_rule {table : String} {p : Option Pending} {f : Option StampFacts}
    {id : WindowId}
    {events base skip : Nat} {trim : Option Nat} (decided : rule table p f id events = .ok
      (base, skip, trim, true)) :
    events ≠ 0 := by
  have above (decided : numberAbove table f id events = .ok (base, skip, trim, true)) :
    events ≠ 0 := by
    rw [numberAbove] at decided
    grind
  cases p with
  | none => exact above decided
  | some q =>
      simp only [rule] at decided
      split at decided
      · cases decided
      · split at decided
        · cases f with
          | none => cases decided
          | some f =>
              obtain ⟨base', -, resumed⟩ := bind_eq_ok.mp decided
              simp only [resume] at resumed
              grind
        · exact above decided

/-- A plan is for its own window, marks only events, and no marker is past its start. -/
theorem replayPlan_spec {table : String} {p : Option Pending} {f : Option StampFacts}
    {id : WindowId}
    {events : Nat} {plan : ReplayPlan} (planned : replayPlan table p f id events = .ok plan) :
    plan.stamp = id.start ∧ plan.events = events ∧ (plan.mark = true → events ≠ 0) ∧
      ∀ q, p = some q → q.start ≤ id.start := by
  obtain ⟨⟨base, skip, trim, mark⟩, decided, numbered⟩ := bind_eq_ok.mp planned
  have started : ∀ q, p = some q → q.start ≤ id.start := by
    rintro q rfl
    by_contra late
    simp only [Replay.rule, if_pos (not_le.mp late)] at decided
    cases decided
  dsimp only at numbered
  split at numbered
  · cases numbered
  · cases numbered
    refine ⟨rfl, rfl, fun marks => ?_, started⟩
    dsimp only at marks
    subst marks
    exact Replay.mark_of_rule decided

/-- No marker is newer than the newest. -/
theorem le_newestMarker {markers : List MarkerRow} {m : MarkerRow} (mem : m ∈ markers) :
    ∃ best, newestMarker markers = some best ∧ m.start ≤ best.start := by
  have grows (markers : List MarkerRow) (best : MarkerRow) :
      ∃ best', markers.foldl newer (some best) = some best' ∧ best.start ≤ best'.start := by
    induction markers generalizing best with
    | nil => exact ⟨best, rfl, Nat.le_refl _⟩
    | cons next markers ih =>
        rw [List.foldl_cons, newer]
        split
        · rename_i newer_
          obtain ⟨best', found, le⟩ := ih next
          exact ⟨best', found, newer_.trans le⟩
        · exact ih best
  obtain ⟨before, after, rfl⟩ := List.append_of_mem mem
  rw [newestMarker, List.foldl_append, List.foldl_cons, ← newestMarker]
  cases old : newestMarker before with
  | none => exact grows after m
  | some best =>
      rw [newer]
      split
      · exact grows after m
      · rename_i older
        obtain ⟨best', found, le⟩ := grows after best
        exact ⟨best', found, (Nat.le_of_not_le older).trans le⟩

/-- The marker a write leaves. -/
def LogWrite.marker? : LogWrite ε → Option MarkerRow
  | .mark m => some m
  | _ => none

namespace Lane

variable {l : Lane ε} {table : String} {plan : ReplayPlan} {events : List ε}

theorem writes_markers (ws : List (LogWrite ε)) :
    (l.writes ws).markers = l.markers ++ ws.filterMap LogWrite.marker? := by
  induction ws generalizing l with
  | nil => exact (List.append_nil _).symm
  | cons w ws ih => cases w <;> simp [ih, Lane.write, LogWrite.marker?, List.filterMap_cons]

theorem mem_writes {ws : List (LogWrite ε)} {r : LogRow ε} (mem : r ∈ (l.writes ws).log) :
    r ∈ l.log ∨ .row r ∈ ws := by
  induction ws generalizing l with
  | nil => exact .inl mem
  | cons w ws ih =>
      rcases ih mem with old | new
      · cases w with
        | trim stamp «from» => exact .inl (List.mem_of_mem_filter old)
        | mark m => exact .inl old
        | row r' =>
            rcases List.mem_append.mp old with old | here
            · exact .inl old
            · obtain rfl := List.mem_singleton.mp here
              exact .inr List.mem_cons_self
      · exact .inr (List.mem_cons_of_mem _ new)

/-- What the writes of a plan leave: its marker behind the others, and rows that were there
or are at its stamp. -/
theorem writes_changelog (plan : ReplayPlan) (events : List ε) :
    (l.writes (changelogWrites plan events)).markers = l.markers ++ plan.marker.toList ∧
      ∀ r ∈ (l.writes (changelogWrites plan events)).log, r ∈ l.log ∨ r.lsn = plan.stamp := by
  have unmarked : (changelogBody plan events).filterMap (LogWrite.marker? ∘ LogWrite.row) = [] := by
    simp [LogWrite.marker?]
  refine ⟨?_, fun r mem => (mem_writes mem).imp_right fun row => ?_⟩
  · rw [writes_markers]
    congr 1
    simp only [changelogWrites, changelogSteps]
    cases plan.trimFrom <;> cases plan.marker <;> by_cases more : plan.skip < plan.events <;>
      simp [ChStep.writes, LogWrite.marker?, List.filterMap_cons, more, unmarked]
  · simp only [changelogWrites, changelogSteps, List.mem_flatMap] at row
    obtain ⟨step, -, row⟩ := row
    cases step with
    | trim «from» => simp [ChStep.writes] at row
    | mark m => simp [ChStep.writes] at row
    | append =>
        simp only [ChStep.writes, List.mem_map, changelogBody] at row
        obtain ⟨_, ⟨e, -, rfl⟩, is⟩ := row
        cases is
        rfl

end Lane

namespace MemoRun

variable {r r' : MemoRun ε} {table : String}

/-- What the memo holds is what the destination holds, past the last committed start. -/
def InStep (r : MemoRun ε) : Prop :=
  ∀ s, r.lane.memo = some s → s.pending = r.lane.pending ∧
    ∀ row ∈ r.lane.log, row.isEvent = true → r.Later row.lsn → ∃ c, s.ceiling = some c ∧ row.lsn ≤ c

/-- At a window that may come next, the plan over the memo is the plan over the facts. -/
theorem InStep.plan (inStep : r.InStep) {id : WindowId} (later : r.Later id.start) (events : Nat) :
    r.lane.planOf table id events = r.lane.truePlan table id events := by
  have remembers : ∀ s, r.lane.memo = some s →
      { r.lane with watermark := id.start }.Remembers s := by
    intro s memo
    obtain ⟨pending, bounded⟩ := inStep s memo
    refine ⟨pending, fun row mem isEvent past => bounded row mem isEvent fun last is => ?_⟩
    exact (later last is).trans_le past
  exact @Lane.planOf_eq_truePlan _ { r.lane with watermark := id.start } remembers
    table id.end events

theorem InStep.consult (inStep : r.InStep) :
    ∃ s, r.lane.consult = some s ∧ s.pending = r.lane.pending ∧
      ∀ row ∈ r.lane.log, row.isEvent = true → r.Later row.lsn →
        ∃ c, s.ceiling = some c ∧ row.lsn ≤ c := by
  cases memo : r.lane.memo with
  | none =>
      refine ⟨⟨r.lane.pending, ceilingOf r.lane.log⟩, ?_, rfl, fun row mem isEvent _ => ?_⟩
      · rw [Lane.consult, memo, Memo.probed]
      · exact Lane.le_ceilingOf mem isEvent
  | some s =>
      refine ⟨s, ?_, inStep s memo⟩
      rw [Lane.consult, memo]

/-- The newest marker behind the writes of a plan over the facts. -/
theorem pending_writes {l : Lane ε} {id : WindowId} {events : List ε} {plan : ReplayPlan}
    (planned : l.truePlan table id events.length = .ok plan) :
    (l.writes (changelogWrites plan events)).pending =
      if plan.mark then some ⟨plan.stamp, some plan.seqBase⟩ else l.pending := by
  obtain ⟨stamp, counted, marks, started⟩ := replayPlan_spec planned
  rw [Lane.pending, (Lane.writes_changelog plan events).1, ReplayPlan.marker]
  by_cases mark : plan.mark = true
  · have newest : ∀ m ∈ l.markers, m.start ≤ plan.stamp := by
      intro m mem
      obtain ⟨best, found, le⟩ := le_newestMarker mem
      have pending : l.pending = some best.pending := by rw [Lane.pending, found, Option.map_some]
      exact le.trans (stamp ▸ started _ pending)
    rw [if_pos mark, if_pos mark, Option.toList_some, newestMarker_concat newest, Option.map_some,
      MarkerRow.pending, if_neg (counted ▸ marks mark)]
  · rw [if_neg mark, if_neg mark, Option.toList_none, List.append_nil]
    rfl

theorem InStep.step (inStep : r.InStep) (step : Step table r r') : r'.InStep := by
  cases step with
  | failed forgot =>
      intro s memo
      rw [forgot] at memo
      cases memo
  | @committed id events plan later planned =>
      rw [inStep.plan later] at planned
      obtain ⟨s, consult, pending, bounded⟩ := inStep.consult
      have stamp := (replayPlan_spec planned).1
      have newest := pending_writes planned
      intro s' memo
      simp only [consult, Memo.committed, Option.map_some] at memo
      have seen : s'.pending = (r.lane.writes (changelogWrites plan events)).pending ∧
          s'.ceiling = s.ceiling := by
        rw [newest]
        by_cases mark : plan.mark = true
        · rw [if_pos mark] at memo ⊢
          exact Option.some.inj memo ▸ ⟨rfl, rfl⟩
        · rw [if_neg mark] at memo ⊢
          exact Option.some.inj memo ▸ ⟨pending, rfl⟩
      refine ⟨seen.1, fun row mem isEvent past => ?_⟩
      have beyond : id.start < row.lsn := past id.start rfl
      rcases (Lane.writes_changelog plan events).2 row mem with old | here
      · rw [seen.2]
        exact bounded row old isEvent fun last is => (later last is).trans beyond
      · omega

/-- From any destination, for every window that a run may come to: the plan over what the
memo holds and asks for is the plan over the newest marker and the facts at the stamp. -/
theorem memo_asks_enough {lane : Lane ε} (unasked : lane.memo = none)
    (run : Relation.ReflTransGen (Step table) ⟨lane, none⟩ r) {id : WindowId}
    (later : r.Later id.start)
    (events : Nat) : r.lane.planOf table id events = r.lane.truePlan table id events := by
  have inStep : r.InStep := by
    clear later
    induction run with
    | refl =>
        intro s memo
        rw [unasked] at memo
        cases memo
    | tail _ step ih => exact ih.step step
  exact inStep.plan later events

/-! ### A window behind an older release's row -/

namespace Behind

def lane : Lane Nat := ⟨[⟨10, 0, .event 7⟩], [], 10, none⟩

def plan : ReplayPlan := ⟨10, 1, 0, 1, none, true, 20⟩

/-- The run once its first window committed. -/
def second : MemoRun Nat where
  lane := { lane.writes (changelogWrites plan [8]) with
    watermark := 20
    memo := lane.consult.committed plan }
  last := some 10

theorem memo_asks_enough_second :
    second.lane.planOf "t" ⟨20, 30⟩ 1 = second.lane.truePlan "t" ⟨20, 30⟩ 1 := by
  have planned : lane.planOf "t" ⟨10, 20⟩ [8].length = .ok plan := rfl
  have free : (⟨lane, none⟩ : MemoRun Nat).Later 10 := nofun
  have first : Step "t" ⟨lane, none⟩ second := @Step.committed _ _ ⟨lane, none⟩ ⟨10, 20⟩
    [8] plan free planned
  have later : second.Later 20 := fun s is => Option.some.inj is ▸ by decide
  exact memo_asks_enough rfl (.single first) later 1

end Behind

end MemoRun

end Apitap
