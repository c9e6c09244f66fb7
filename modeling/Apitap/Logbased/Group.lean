import Apitap.Logbased.ApplyWindows
import Apitap.Logbased.DrainPartition

/-!
# Members at different heights

A group drains from its lowest watermark, and each member skips the windows it
is already past. That is only right when no window straddles a watermark, so a
pass stops at the next watermark above the lowest. The stop is a line, not a
position: a drain stops at the first commit at or past it, or at a keepalive,
and a commit may end beyond it.

`uncrossed` says of a stream that what stops a pass at the line is not such a
commit. Then no window straddles, and over any number of runs every member
applies what the source committed once. On BigQuery no member skips a window it
is past, so there the members have to be level.
-/

namespace Apitap

open Foundation (bind_eq_ok map_eq_ok)

/-- The next member watermark above the lowest, if the members are not level. -/
def memberCap (min : Nat) (floors : List Nat) : Option Nat :=
  (floors.filter fun f => min < f).min?

/-- A drain call of a group's pass. While the members are not level it stops at
the cap, or at where the source's WAL ended when the pass began, and follows
nothing. -/
def groupCall (cap : Option Nat) (stop : Nat) (p : DrainCall) : DrainCall :=
  { p with
    stopLine := cap.elim p.stopLine fun c => min c stop
    follow := if cap.isNone then p.follow else none }

section pass

variable (β : Type) {W : Type} [WindowBody W] [DrainBody β W]

/-- The windows of one pass of the drain loop: drain again at once while a window
stopped at its budget or at a layout change, or while following. A shorter list
of calls is a pass that a SIGTERM or an error ends earlier. -/
def drainLoop (sess : DrainSession) (cur : Nat) (events : List WalEvent) :
    List DrainCall → Except Error (List (DrainOutcome W))
  | [] => .ok []
  | p :: calls => do
      let (o, sess, rest) ← drain β p sess cur events
      -- A drain never ends below its start, so `cur` only moves on.
      if o.hitBudget || p.follow.isSome then
        (drainLoop sess o.id.end rest calls).map (o :: ·)
      else .ok [o]

end pass

/-- The end of the transaction a message commits. -/
def PgoMessage.commitEnd : PgoMessage → Option Nat
  | .commit e => some e
  | .streamCommit _ e => some e
  | _ => none

/-- Nothing sent that is still to land, and no block open. -/
def Server.idle (sv : Server) : Bool := (sv.tx.getD []).isEmpty && sv.block.isNone

/-- What stops a drain at a stop-line is not a commit past the cap: it is a
keepalive between transactions, or a commit at or below the cap. -/
def Server.uncrossed (keyCols : String → Option (List String)) (stopLine cap : Nat) (sv : Server) :
    List WalEvent → Bool
  | [] => true
  | ev :: events =>
      let after := (sv.step? keyCols ev).all fun sv => sv.uncrossed keyCols stopLine cap events
      match ev with
      | .keepalive walEnd _ => (decide (stopLine ≤ walEnd) && sv.idle) || after
      | .xlogData msg _ => match msg.commitEnd with
          | some e => decide (e ≤ cap) && (decide (stopLine ≤ e) || after)
          | none => after

section ends

variable {β W : Type} [WindowBody W] [DrainBody β W]
variable {keyCols : String → Option (List String)}

/-- An event that moves neither the window's end nor what stops it. -/
structure SameEnds (d d' : Drain β) : Prop where
  endLsn : d'.endLsn = d.endLsn
  stopLine : d'.stopLine = d.stopLine
  hitBudget : d'.hitBudget = d.hitBudget
  carry : d'.sess.carry = d.sess.carry

variable {p : DrainCall} {m : Moment} {d d' d'' : Drain β} {stop : Bool}

theorem SameEnds.refl (d : Drain β) : SameEnds d d := ⟨rfl, rfl, rfl, rfl⟩

theorem SameEnds.trans (first : SameEnds d d') (second : SameEnds d' d'') : SameEnds d d'' :=
  ⟨second.endLsn.trans first.endLsn, second.stopLine.trans first.stopLine,
    second.hitBudget.trans first.hitBudget, second.carry.trans first.carry⟩

theorem SameEnds.rowChange {sub : Option Nat} {weighed : Bool} {relId : Nat} {op : StreamOp}
    (ran : d.rowChange p sub weighed relId op = .ok d') : SameEnds d d' := by
  obtain ⟨⟨slot, sess⟩, found, ran⟩ := bind_eq_ok.mp ran
  have carry : sess.carry = d.sess.carry := by
    rw [DrainSession.tracked] at found
    split at found
    · cases found
    · cases found
      rfl
  dsimp only at ran
  cases slot with
  | none =>
      cases ran
      exact ⟨rfl, rfl, rfl, carry⟩
  | some t =>
      simp only [Drain.bufferOp] at ran
      split at ran
      · split at ran
        · cases ran
        · obtain ⟨ops, -, rfl⟩ := map_eq_ok.mp ran
          exact ⟨rfl, rfl, rfl, carry⟩
      · split at ran
        · cases ran
        · cases ran
          exact ⟨rfl, rfl, rfl, carry⟩

theorem SameEnds.relation {r : Relation} (ran : d.relation p r = .ok d') : SameEnds d d' := by
  obtain ⟨layout, -, ran⟩ := bind_eq_ok.mp ran
  obtain ⟨_, -, ran⟩ := bind_eq_ok.mp ran
  obtain ⟨⟨s, sess⟩, placed, ran⟩ := bind_eq_ok.mp ran
  have carry : sess.carry = d.sess.carry := by
    rw [DrainSession.relSlot] at placed
    split at placed
    · cases placed
      rfl
    · split at placed
      · cases placed
        rfl
      · cases placed
  cases ran
  exact ⟨rfl, rfl, rfl, carry⟩

/-- A message that commits nothing stops nothing. -/
theorem SameEnds.message {msg : PgoMessage} {sub : Option Nat} (quiet : msg.commitEnd = none)
    (ran : d.message p msg sub = .ok (d', stop)) : SameEnds d d' ∧ stop = false := by
  cases msg with
  | commit e => cases quiet
  | streamCommit xid e => cases quiet
  | begin | streamStart xid | streamStop | origin | type =>
      cases ran
      exact ⟨⟨rfl, rfl, rfl, rfl⟩, rfl⟩
  | streamAbort xid subXid =>
      cases ran
      refine ⟨⟨rfl, rfl, rfl, ?_⟩, rfl⟩
      change (Drain.abort d.sess xid subXid).carry = _
      rw [Drain.abort]
      split <;> rfl
  | relation r =>
      obtain ⟨d₁, ran', same⟩ := map_eq_ok.mp ran
      cases same
      exact ⟨.relation ran', rfl⟩
  | insert relId new =>
      obtain ⟨d₁, ran', same⟩ := map_eq_ok.mp ran
      cases same
      exact ⟨.rowChange ran', rfl⟩
  | update relId old new =>
      obtain ⟨d₁, ran', same⟩ := map_eq_ok.mp ran
      cases same
      exact ⟨.rowChange ran', rfl⟩
  | delete relId old =>
      obtain ⟨d₁, ran', same⟩ := map_eq_ok.mp ran
      cases same
      exact ⟨.rowChange ran', rfl⟩
  | truncate relIds =>
      obtain ⟨d₁, ran', same⟩ := map_eq_ok.mp ran
      cases same
      refine ⟨?_, rfl⟩
      clear ran quiet
      generalize sub.or d.inStream = sub at ran'
      induction relIds generalizing d with
      | nil =>
          cases ran'
          exact .refl _
      | cons relId relIds ih =>
          obtain ⟨d₁, one, more⟩ := bind_eq_ok.mp ran'
          exact (SameEnds.rowChange one).trans (ih more)

/-- What a commit does: the transaction is carried to the next window, or lands
and reaches the stop-line, fills the budget, or leaves the drain reading on. -/
inductive CommitEnds (d d' : Drain β) (e : Nat) : Bool → Prop
  | carried (endLsn : d'.endLsn = d.endLsn) (hit : d'.hitBudget = true)
      (carry : ∃ ops, d'.sess.carry = some (ops, e)) : CommitEnds d d' e true
  | reached (endLsn : d'.endLsn = e) (le : d.stopLine ≤ e) (hit : d'.hitBudget = d.hitBudget)
      (carry : d'.sess.carry = d.sess.carry) : CommitEnds d d' e true
  | full (endLsn : d'.endLsn = e) (lt : e < d.stopLine) (hit : d'.hitBudget = true)
      (carry : d'.sess.carry = d.sess.carry) : CommitEnds d d' e true
  | landed (endLsn : d'.endLsn = e) (lt : e < d.stopLine) (stopLine : d'.stopLine = d.stopLine)
      (hit : d'.hitBudget = d.hitBudget) (carry : d'.sess.carry = d.sess.carry) :
      CommitEnds d d' e false

theorem CommitEnds.commit {ops : TxOps} {n e : Nat} (ran : d.commit p ops n e = .ok (d', stop)) :
    CommitEnds d d' e stop := by
  rw [Drain.commit] at ran
  split at ran
  · cases ran
    exact .carried rfl rfl ⟨ops, rfl⟩
  · obtain ⟨bodies, -, ran⟩ := map_eq_ok.mp ran
    dsimp only at ran
    split at ran
    · rename_i reached
      cases ran
      exact .reached rfl reached rfl rfl
    · rename_i short
      split at ran
      · cases ran
        exact .full rfl (not_le.mp short) rfl rfl
      · cases ran
        exact .landed rfl (not_le.mp short) rfl rfl rfl

theorem CommitEnds.message {msg : PgoMessage} {sub : Option Nat} {e : Nat}
    (commits : msg.commitEnd = some e) (ran : d.message p msg sub = .ok (d', stop)) :
    CommitEnds d d' e stop := by
  have same : ∀ {d₁ : Drain β} {ops : TxOps} {n : Nat}, d₁.commit p ops n e = .ok (d', stop) →
      d₁.endLsn = d.endLsn → d₁.stopLine = d.stopLine → d₁.hitBudget = d.hitBudget →
      d₁.sess.carry = d.sess.carry → CommitEnds d d' e stop := by
    intro d₁ ops n ran endLsn stopLine hit carry
    cases CommitEnds.commit ran with
    | carried endLsn' hit' carry' => exact .carried (endLsn'.trans endLsn) hit' carry'
    | reached endLsn' le hit' carry' =>
        exact .reached endLsn' (stopLine ▸ le) (hit'.trans hit) (carry'.trans carry)
    | full endLsn' lt hit' carry' => exact .full endLsn' (stopLine ▸ lt) hit' (carry'.trans carry)
    | landed endLsn' lt stopLine' hit' carry' =>
        exact .landed endLsn' (stopLine ▸ lt) (stopLine'.trans stopLine) (hit'.trans hit)
          (carry'.trans carry)
  cases msg with
  | commit e' =>
      cases commits
      simp only [Drain.message] at ran
      exact same ran rfl rfl rfl rfl
  | streamCommit xid e' =>
      cases commits
      simp only [Drain.message] at ran
      exact same ran rfl rfl rfl rfl
  | begin | streamStart xid | streamStop | origin | type | streamAbort xid subXid | relation r
  | insert relId new | update relId old new | delete relId old | truncate relIds => cases commits

/-- What a keepalive does while nothing is followed: between transactions, at the
stop-line, it closes the window there; else it moves nothing. -/
theorem SameEnds.keepalive {walEnd : Nat} {reply : Bool} (alone : p.follow = none)
    (ran : d.keepalive p m walEnd reply = .ok (d', stop)) :
    d.stopLine ≤ walEnd ∧ d.idle = true ∧ stop = true ∧
        d'.endLsn = max d.endLsn d.stopLine ∧ d'.hitBudget = d.hitBudget ∨
      ¬(d.stopLine ≤ walEnd ∧ d.idle = true) ∧ SameEnds d d' ∧ stop = false := by
  rw [Drain.keepalive] at ran
  dsimp only at ran
  generalize told : (if reply = true then { d with reported := d.reported ++ [m.applied] } else d) =
    d₁ at ran
  have same : SameEnds d d₁ := by
    subst told
    split <;> exact ⟨rfl, rfl, rfl, rfl⟩
  have idle : d₁.idle = d.idle := by
    subst told
    split <;> rfl
  rw [same.stopLine, idle, alone] at ran
  split at ran
  · rename_i closes
    cases ran
    refine .inl ⟨closes.1, closes.2, rfl, ?_, same.hitBudget⟩
    change max d₁.endLsn (min walEnd d.stopLine) = _
    rw [same.endLsn, min_eq_right closes.1]
  · rename_i open_
    cases ran
    exact .inr ⟨open_, same, rfl⟩

/-- What is left of a pass between two drains: the transaction carried over ends
at or below the cap, and unless it reaches the stop-line the stream goes on
uncrossed. -/
def Within (keyCols : String → Option (List String)) (stopLine cap : Nat) (sess : DrainSession)
    (sv : Server) (events : List WalEvent) : Prop :=
  match sess.carry with
  | none => sv.uncrossed keyCols stopLine cap events = true
  | some (_, e) => e ≤ cap ∧ (e < stopLine → sv.uncrossed keyCols stopLine cap events = true)

theorem Amid.idle_iff {sv : Server} (amid : Amid d sv) : d.idle = true ↔ sv.idle = true := by
  have buffered := amid.buffered
  rw [Drain.idle_iff, Server.idle, amid.block, Bool.and_eq_true, List.isEmpty_iff,
    Option.isNone_iff_eq_none]
  refine and_congr_left fun _ => ⟨fun empty => ?_, fun empty => ?_⟩
  · rw [empty] at buffered
    exact List.forall₂_nil_left_iff.mp buffered
  · rw [empty] at buffered
    exact List.forall₂_nil_right_iff.mp buffered

variable {sv final : Server} {startLsn stopLine cap : Nat} {before chunk : List Tx}

/-- A drain's loop ends at or below the cap, and where it asks to be drained
again at once, what is left is within the cap too. -/
theorem InStep.loop_within {events rest : List WalEvent} {turn : Nat}
    (inStep : InStep keyCols d sv startLsn before chunk []) (amid : events ≠ [] → Amid d sv)
    (keys : p.keyCols = keyCols) (alone : p.follow = none) (line : d.stopLine = stopLine)
    (le_cap : stopLine ≤ cap) (end_le : d.endLsn ≤ cap) (hit : d.hitBudget = false)
    (legal : sv.run? keyCols events = some final)
    (clear : sv.uncrossed keyCols stopLine cap events = true)
    (ran : d.loop p turn events = .ok (d', rest)) :
    d'.endLsn ≤ cap ∧ (d'.hitBudget = true → ∃ consumed sv', events = consumed ++ rest ∧
      sv.run? keyCols consumed = some sv' ∧ Within keyCols stopLine cap d'.sess sv' rest) := by
  induction events generalizing d sv chunk turn with
  | nil =>
      cases ran
      refine ⟨end_le, fun more => ?_⟩
      rw [hit] at more
      cases more
  | cons ev events ih =>
      rw [Drain.loop] at ran
      split at ran
      · cases ran
        refine ⟨end_le, fun more => ?_⟩
        rw [hit] at more
        cases more
      · split at ran
        · cases ran
        · obtain ⟨sv₁, first, legal⟩ := Option.bind_eq_some_iff.mp legal
          obtain ⟨⟨d₁, stop⟩, one, ran⟩ := bind_eq_ok.mp ran
          obtain ⟨amid₁, chunk₁, carried, inStep₁, goesOn, -⟩ :=
            inStep.event (amid (fun is => by cases is)) keys first one
          have after : (sv.step? keyCols ev).all (fun sv =>
              sv.uncrossed keyCols stopLine cap events) =
              sv₁.uncrossed keyCols stopLine cap events := by rw [first, Option.all_some]
          have goOn : stop = false → d₁.stopLine = stopLine → d₁.endLsn ≤ cap →
              d₁.hitBudget = false → sv₁.uncrossed keyCols stopLine cap events = true →
              d'.endLsn ≤ cap ∧ (d'.hitBudget = true → ∃ consumed sv', ev :: events =
                consumed ++ rest ∧ sv.run? keyCols consumed = some sv' ∧
                Within keyCols stopLine cap d'.sess sv' rest) := by
            rintro rfl line' end_le' hit' clear'
            rw [goesOn rfl] at inStep₁
            obtain ⟨le, more⟩ := ih inStep₁ (fun _ => amid₁) line' end_le' hit' legal clear' ran
            refine ⟨le, fun hit => ?_⟩
            obtain ⟨consumed, sv', rfl, reached, within⟩ := more hit
            refine ⟨ev :: consumed, sv', rfl, ?_, within⟩
            rw [Server.run?, first]
            exact reached
          have closing : stop = true → d₁.endLsn ≤ cap →
              (d₁.hitBudget = true → Within keyCols stopLine cap d₁.sess sv₁ events) →
              d'.endLsn ≤ cap ∧ (d'.hitBudget = true → ∃ consumed sv', ev :: events =
                consumed ++ rest ∧ sv.run? keyCols consumed = some sv' ∧
                Within keyCols stopLine cap d'.sess sv' rest) := by
            rintro rfl end_le' within
            cases ran
            refine ⟨end_le', fun hit => ⟨[ev], sv₁, rfl, ?_, within hit⟩⟩
            rw [Server.run?, first]
            rfl
          have carry : d.sess.carry = none := inStep.keeps.none_carried
          cases ev with
          | keepalive walEnd reply =>
              simp only [Server.uncrossed, after, Bool.or_eq_true, Bool.and_eq_true,
                decide_eq_true_eq] at clear
              cases SameEnds.keepalive alone one with
              | inl closes =>
                  obtain ⟨-, -, stops, endLsn, hit'⟩ := closes
                  refine closing stops (by rw [endLsn, line]; exact max_le end_le le_cap)
                    fun more => ?_
                  rw [hit', hit] at more
                  cases more
              | inr open_ =>
                  obtain ⟨not_closed, same, goes⟩ := open_
                  rw [line, (amid (fun is => by cases is)).idle_iff] at not_closed
                  exact goOn goes (same.stopLine.trans line) (same.endLsn ▸ end_le)
                    (same.hitBudget.trans hit) (clear.resolve_left not_closed)
          | xlogData msg sub =>
              cases commits : msg.commitEnd with
              | none =>
                  simp only [Server.uncrossed, commits, after] at clear
                  obtain ⟨same, goes⟩ := SameEnds.message commits one
                  exact goOn goes (same.stopLine.trans line) (same.endLsn ▸ end_le)
                    (same.hitBudget.trans hit) clear
              | some e =>
                  simp only [Server.uncrossed, commits, after, Bool.and_eq_true, Bool.or_eq_true,
                    decide_eq_true_eq] at clear
                  obtain ⟨e_le, stops_or⟩ := clear
                  cases CommitEnds.message commits one with
                  | carried endLsn hit' carried =>
                      refine closing rfl (endLsn ▸ end_le) fun _ => ?_
                      obtain ⟨ops, carried⟩ := carried
                      rw [Within, carried]
                      exact ⟨e_le, fun short => stops_or.resolve_left (not_le.mpr short)⟩
                  | reached endLsn le hit' carried =>
                      refine closing rfl (endLsn ▸ e_le) fun more => ?_
                      rw [hit', hit] at more
                      cases more
                  | full endLsn lt hit' carried =>
                      refine closing rfl (endLsn ▸ e_le) fun _ => ?_
                      rw [Within, carried, carry]
                      exact stops_or.resolve_left (not_le.mpr (line ▸ lt))
                  | landed endLsn lt line' hit' carried =>
                      exact goOn rfl (line'.trans line) (endLsn ▸ e_le) (hit'.trans hit)
                        (stops_or.resolve_left (not_le.mpr (line ▸ lt)))

/-- One drain of a capped pass ends at or below the cap. -/
theorem Rests.drain_within {sess sess' : DrainSession} {landed carried : List Tx}
    {events rest : List WalEvent} {o : DrainOutcome W}
    (rests : Rests keyCols sess sv startLsn landed carried events) (keys : p.keyCols = keyCols)
    (alone : p.follow = none) (line : p.stopLine = stopLine) (le_cap : stopLine ≤ cap)
    (start_le : startLsn ≤ cap) (legal : sv.run? keyCols events = some final)
    (within : Within keyCols stopLine cap sess sv events)
    (ran : Apitap.drain β p sess startLsn events = .ok (o, sess', rest)) :
    o.id.end ≤ cap ∧ (o.hitBudget = true → ∃ consumed sv', events = consumed ++ rest ∧
      sv.run? keyCols consumed = some sv' ∧ Within keyCols stopLine cap sess' sv' rest) := by
  obtain ⟨⟨d₀, carriedToStop⟩, started, ran⟩ := bind_eq_ok.mp ran
  obtain ⟨inStep, amid, -⟩ := rests.start started
  obtain ⟨⟨d, rest'⟩, looped, ran⟩ := bind_eq_ok.mp ran
  obtain ⟨bodies, -, ran⟩ := bind_eq_ok.mp ran
  cases ran
  rw [Drain.start] at started
  rw [Within] at within
  split at within
  · rename_i none_there
    simp only [none_there] at started
    cases started
    exact inStep.loop_within amid keys alone line le_cap start_le rfl legal within looped
  · rename_i ops e there
    simp only [there] at started
    obtain ⟨e_le, clear⟩ := within
    obtain ⟨bodies₀, -, same⟩ := map_eq_ok.mp started
    obtain ⟨rfl, rfl⟩ := Prod.mk.inj same
    rw [Drain.read] at looped
    split at looped
    · cases looped
      exact ⟨e_le, fun is => (by cases is)⟩
    · rename_i short
      rw [line, decide_eq_true_eq, not_le] at short
      exact inStep.loop_within amid keys alone line le_cap e_le rfl legal (clear short) looped

/-- A capped pass ends every window at or below the cap. -/
theorem Rests.drainLoop_within {sess : DrainSession} {landed carried : List Tx}
    {events : List WalEvent} {calls : List DrainCall} {os : List (DrainOutcome W)}
    (rests : Rests keyCols sess sv startLsn landed carried events)
    (given : ∀ p ∈ calls, p.keyCols = keyCols ∧ p.follow = none ∧ p.stopLine = stopLine)
    (le_cap : stopLine ≤ cap) (start_le : startLsn ≤ cap)
    (legal : sv.run? keyCols events = some final)
    (within : Within keyCols stopLine cap sess sv events)
    (ran : drainLoop β sess startLsn events calls = .ok os) : ∀ o ∈ os, o.id.end ≤ cap := by
  induction calls generalizing sess sv startLsn landed carried events os with
  | nil =>
      cases ran
      exact nofun
  | cons p calls ih =>
      obtain ⟨keys, alone, line⟩ := given p (.head _)
      obtain ⟨⟨o, sess₁, rest⟩, first, ran⟩ := bind_eq_ok.mp ran
      obtain ⟨end_le, more⟩ :=
        rests.drain_within keys alone line le_cap start_le legal within first
      obtain ⟨consumed, sv₁, chunk, carried₁, split_at, reached, legal₁, rests₁, -⟩ :=
        rests.drain keys legal first
      dsimp only at ran
      split at ran
      · rename_i again
        rw [alone, Option.isSome_none, Bool.or_false] at again
        obtain ⟨os', ran', rfl⟩ := map_eq_ok.mp ran
        obtain ⟨consumed', sv', split_at', reached', within'⟩ := more again
        have same : consumed' = consumed :=
          List.append_cancel_right (split_at'.symm.trans split_at)
        rw [same, reached] at reached'
        cases reached'
        intro o' mem
        cases List.mem_cons.mp mem with
        | inl here =>
            rw [here]
            exact end_le
        | inr mem =>
            exact ih rests₁ (fun p mem => given p (.tail _ mem)) end_le legal₁ within' ran' o' mem
      · cases ran
        intro o' mem
        rw [List.mem_singleton.mp mem]
        exact end_le

/-- A pass is successive drains of some of its calls. -/
theorem drainLoop_drains {sess : DrainSession} {events : List WalEvent} {calls : List DrainCall}
    {os : List (DrainOutcome W)} (ran : drainLoop β sess startLsn events calls = .ok os) :
    ∃ calls' sess' rest, (∀ p ∈ calls', p ∈ calls) ∧
      drains β sess startLsn events calls' = .ok (os, sess', rest) := by
  induction calls generalizing sess startLsn events os with
  | nil =>
      cases ran
      exact ⟨[], sess, events, nofun, rfl⟩
  | cons p calls ih =>
      obtain ⟨⟨o, sess₁, rest⟩, first, ran⟩ := bind_eq_ok.mp ran
      dsimp only at ran
      split at ran
      · obtain ⟨os', ran', rfl⟩ := map_eq_ok.mp ran
        obtain ⟨calls', sess', rest', sub, more⟩ := ih ran'
        refine ⟨p :: calls', sess', rest', ?_, bind_eq_ok.mpr
          ⟨_, first, bind_eq_ok.mpr ⟨_, more, rfl⟩⟩⟩
        exact List.forall_mem_cons.mpr ⟨.head _, fun p mem => .tail _ (sub p mem)⟩
      · cases ran
        refine ⟨[p], sess₁, rest, by simp, bind_eq_ok.mpr ⟨_, first, rfl⟩⟩

end ends

section group

variable {β W : Type} [WindowBody W] [DrainBody β W]
variable {keyCols : String → Option (List String)}

/-- One group pass: from the lowest watermark, over a stream the server sends
from there, with the calls of the pass. -/
structure Pass where
  dest : Slot.Store
  floors : List Nat
  wm : Nat
  /-- Where the source's WAL ended when the pass began. -/
  stop : Nat
  expected : String → Option (Nat × String)
  events : List WalEvent
  calls : List DrainCall

namespace Pass

def cap (s : Pass) : Option Nat := memberCap s.wm s.floors

/-- The windows the pass drains. -/
def windows (β : Type) {W : Type} [WindowBody W] [DrainBody β W] (s : Pass) :
    Except Error (List (DrainOutcome W)) :=
  drainLoop β (.expecting s.expected) s.wm s.events (s.calls.map (groupCall s.cap s.stop))

/-- The pass begins at the lowest watermark, over a legal stream. -/
structure Legal (keyCols : String → Option (List String)) (s : Pass) (final : Server) : Prop where
  lowest : ∀ f ∈ s.floors, s.wm ≤ f
  keys : ∀ p ∈ s.calls, p.keyCols = keyCols
  stream : (Server.start s.wm).run? keyCols s.events = some final

/-- The members are level, or they skip what they are past and what stops the pass at its line
is not a commit past the cap. -/
def uncrossed (keyCols : String → Option (List String)) (s : Pass) : Bool :=
  s.cap.all fun c => decide (s.dest ≠ .bq) &&
    (Server.start s.wm).uncrossed keyCols (min c s.stop) c s.events

variable {s : Pass} {final : Server} {os : List (DrainOutcome W)}

theorem cap_eq_some {c : Nat} (capped : s.cap = some c) :
    s.wm < c ∧ ∀ f ∈ s.floors, s.wm < f → c ≤ f := by
  obtain ⟨mem, least⟩ := List.min?_eq_some_iff.mp capped
  refine ⟨of_decide_eq_true (List.mem_filter.mp mem).2, fun f there above => ?_⟩
  exact least f (List.mem_filter.mpr ⟨there, decide_eq_true above⟩)

/-- The windows are cut from what the server commits, one after another. -/
theorem Legal.partitions (legal : s.Legal keyCols final) (ran : s.windows β = .ok os) :
    (∃ later, Partitions β s.wm os final.committed later) ∧ ∀ o ∈ os, o.id.end ≤ final.horizon := by
  obtain ⟨calls, sess, rest, sub, ran'⟩ := drainLoop_drains ran
  have keys : ∀ p ∈ calls, p.keyCols = keyCols := by
    intro p mem
    obtain ⟨p', mem', rfl⟩ := List.mem_map.mp (sub p mem)
    exact legal.keys p' mem'
  obtain ⟨sv, txs, carried, endLsn, -, rests, ends, unread, committed, cuts⟩ :=
    (Rests.expecting s.expected s.wm s.events).drains keys legal.stream ran'
  refine ⟨⟨carried ++ unread, ?_⟩, ends⟩
  rwa [committed, rests.committed, List.nil_append]

/-- No window of an uncrossed pass straddles a member's watermark: the member skips it whole, or
is not past its start. -/
theorem Legal.no_straddle (legal : s.Legal keyCols final) (clear : s.uncrossed keyCols = true)
    (ran : s.windows β = .ok os) : ∀ o ∈ os, ∀ f ∈ s.floors,
      o.id.end ≤ f ∧ ¬s.dest.applies f o.id.end ∨ f ≤ o.id.start := by
  intro o mem f there
  obtain ⟨⟨later, cuts⟩, -⟩ := legal.partitions ran
  have start_ge := cuts.start_ge o mem
  have lowest := legal.lowest f there
  cases capped : s.cap with
  | none =>
      -- the members are level
      have level : ¬s.wm < f := by
        rw [cap, memberCap, List.min?_eq_none_iff, List.filter_eq_nil_iff] at capped
        simpa using capped f there
      right
      omega
  | some c =>
      obtain ⟨lt_c, least⟩ := cap_eq_some capped
      rw [uncrossed, capped, Option.all_some, Bool.and_eq_true, decide_eq_true_eq] at clear
      obtain ⟨elsewhere, clear⟩ := clear
      have given : ∀ p ∈ s.calls.map (groupCall s.cap s.stop),
          p.keyCols = keyCols ∧ p.follow = none ∧ p.stopLine = min c s.stop := by
        intro p mem
        obtain ⟨p', mem', rfl⟩ := List.mem_map.mp mem
        rw [capped]
        exact ⟨legal.keys p' mem', rfl, rfl⟩
      have end_le := (Rests.expecting s.expected s.wm s.events).drainLoop_within given
        (min_le_left _ _) (Nat.le_of_lt lt_c) legal.stream clear ran o mem
      by_cases above : s.wm < f
      · have skipped : o.id.end ≤ f := le_trans end_le (least f there above)
        refine .inl ⟨skipped, fun applied => ?_⟩
        exact absurd (applied.resolve_left elsewhere) (Nat.not_lt.mpr skipped)
      · right
        omega

end Pass

/-- One member of a group, with what its closed units applied. -/
structure Member (W : Type) [WindowBody W] where
  table : String
  /-- The watermark its bootstrap recorded. -/
  origin : Nat
  watermark : Nat
  /-- Its slice of each window it applied; none where the window had no traffic
  for it. -/
  applied : List (Option (TableWindow W))

/-- The window of one table. -/
def DrainOutcome.slice (o : DrainOutcome W) (table : String) : Option (TableWindow W) :=
  o.bodies.lookup table

/-- Apply one window in a unit that closes, or skip it. -/
def Member.applyMember (dest : Slot.Store) (floor : Nat) (m : Member W) (o : DrainOutcome W) :
    Member W :=
  if dest.applies floor o.id.end then
    { m with applied := m.applied ++ [o.slice m.table], watermark := o.id.end }
  else m

/-- The windows the drain loop sends to the applies. -/
def sent (os : List (DrainOutcome W)) : List (DrainOutcome W) :=
  os.filter fun o => o.id.start < o.id.end

/-- A slice is what landing one table's ops of some transactions makes. -/
def SliceOf (β : Type) [DrainBody β W] (table : String) (slice : Option (TableWindow W))
    (chunk : List Tx) : Prop :=
  match slice with
  | none => opsOf table chunk = []
  | some w => ∃ (l : Layout) (b : β), DrainBody.landAll (DrainBody.new l)
      (opsOf table chunk) = .ok b ∧
      DrainBody.sealBody b table = .ok w

/-- The member applied every transaction between its bootstrap and its watermark,
once, in commit order. -/
def Member.Once (β : Type) [DrainBody β W] (history : List Tx) (m : Member W) : Prop :=
  m.origin ≤ m.watermark ∧ ∃ chunks, List.Forall₂ (SliceOf β m.table) m.applied chunks ∧
    chunks.flatten = history.filter fun tx => m.origin < tx.commit ∧ tx.commit ≤ m.watermark

/-- One run of a group: a pass from the members' stored watermarks over what the
source committed, after which each member has closed some of its windows, in
order, and failed or never reached the rest. -/
structure GroupRun (β : Type) [DrainBody β W] (keyCols : String → Option (List String))
    (history : List Tx) (ms : List (Member W)) (s : Pass) (os : List (DrainOutcome W))
    (ms' : List (Member W)) : Prop where
  floors : s.floors = ms.map Member.watermark
  serves : ∃ final past later, s.Legal keyCols final ∧
    history = past ++ final.committed ++ later ∧ (∀ tx ∈ past, tx.commit ≤ s.wm) ∧
    ∀ tx ∈ later, final.horizon < tx.commit
  ran : s.windows β = .ok os
  closes : List.Forall₂ (fun m m' => ∃ n,
    m' = ((sent os).take n).foldl (Member.applyMember s.dest m.watermark) m) ms ms'

/-- Runs one after another, each of whose passes meets a condition. -/
inductive GroupRuns (β : Type) [DrainBody β W] (keyCols : String → Option (List String))
    (history : List Tx) (meets : Pass → Prop) (ms : List (Member W)) : List (Member W) → Prop
  | start : GroupRuns β keyCols history meets ms ms
  | run {ms' ms'' : List (Member W)} {s : Pass} {os : List (DrainOutcome W)}
      (before : GroupRuns β keyCols history meets ms ms') (met : meets s)
      (ran : GroupRun β keyCols history ms' s os ms'') :
      GroupRuns β keyCols history meets ms ms''

section once

variable {history pre txs beyond later : List Tx} {startLsn floor : Nat}
variable {os : List (DrainOutcome W)} {m : Member W} {dest : Slot.Store}

theorem DrainOutcome.Hands.slice {o : DrainOutcome W} {chunk : List Tx} (hands : o.Hands β chunk)
    (t : String) : SliceOf β t (o.slice t) chunk := by
  rw [DrainOutcome.slice]
  cases found : o.bodies.lookup t with
  | none =>
      by_contra some_ops
      obtain ⟨⟨t', w⟩, mem, rfl⟩ := List.mem_map.mp ((hands.table t).mpr some_ops)
      have absent := List.lookup_eq_none_iff.mp found (t', w) mem
      simp at absent
  | some w =>
      obtain ⟨before, after, bodies, -⟩ := List.lookup_eq_some_iff.mp found
      exact hands.body t w (by rw [bodies]; simp)

private theorem filter_cut {front back : List Tx} {at_ origin : Nat}
    (front_le : ∀ tx ∈ front, tx.commit ≤ at_) (back_gt : ∀ tx ∈ back, at_ < tx.commit) :
    (front ++ back).filter (fun tx => origin < tx.commit ∧ tx.commit ≤ at_) =
      front.filter fun tx => origin < tx.commit := by
  have none_back : back.filter (fun tx => origin < tx.commit ∧ tx.commit ≤ at_) = [] := by
    rw [List.filter_eq_nil_iff]
    intro tx mem
    have gt := back_gt tx mem
    rw [decide_eq_true_eq]
    omega
  rw [List.filter_append, none_back, List.append_nil]
  refine List.filter_congr fun tx mem => ?_
  have le := front_le tx mem
  simp [le]

/-- The windows a member does not skip apply the transactions after its watermark. -/
theorem Member.Once.applyWindows (cuts : Partitions β startLsn os txs later)
    (once : m.Once β history) (level : m.watermark = max startLsn floor)
    (whole : history = pre ++ txs ++ beyond) (pre_le : ∀ tx ∈ pre, tx.commit ≤ startLsn)
    (txs_gt : ∀ tx ∈ txs, startLsn < tx.commit)
    (beyond_gt : ∀ o ∈ os, ∀ tx ∈ beyond, o.id.end < tx.commit)
    (clear : ∀ o ∈ os, o.id.end ≤ floor ∧ ¬dest.applies floor o.id.end ∨ floor ≤ o.id.start)
    (n : Nat) : (((sent os).take n).foldl (Member.applyMember dest floor) m).Once β history := by
  induction cuts generalizing m pre n with
  | nil => simpa [sent] using once
  | @cons startLsn o os chunk txs later start start_le hands landed_le lt_later rest ih =>
      have beyond_gt' : ∀ o' ∈ os, ∀ tx ∈ beyond, o'.id.end < tx.commit :=
        fun o' mem => beyond_gt o' (.tail _ mem)
      have clear' : ∀ o' ∈ os,
          o'.id.end ≤ floor ∧ ¬dest.applies floor o'.id.end ∨ floor ≤ o'.id.start :=
        fun o' mem => clear o' (.tail _ mem)
      have whole' : history = (pre ++ chunk) ++ txs ++ beyond := by
        rw [whole]
        simp only [List.append_assoc]
      have pre_le' : ∀ tx ∈ pre ++ chunk, tx.commit ≤ o.id.end := by
        intro tx mem
        cases List.mem_append.mp mem with
        | inl mem => exact le_trans (pre_le tx mem) start_le
        | inr mem => exact landed_le tx mem
      by_cases moves : o.id.start < o.id.end
      · rw [sent, List.filter_cons_of_pos (by simpa using moves), ← sent]
        cases n with
        | zero => exact once
        | succ n =>
            rw [List.take_succ_cons, List.foldl_cons]
            by_cases applies : dest.applies floor o.id.end
            case neg =>
              rw [Member.applyMember, if_neg applies]
              have past : o.id.end ≤ floor := Nat.not_lt.mp (mt .inr applies)
              refine ih once ?_ whole' pre_le' lt_later beyond_gt' clear' n
              omega
            case pos =>
              rw [Member.applyMember, if_pos applies]
              have at_start : floor ≤ startLsn :=
                start ▸ (clear o (.head _)).resolve_left fun skipped => skipped.2 applies
              have mark : m.watermark = startLsn := by omega
              obtain ⟨origin_le, chunks, slices, applied⟩ := once
              refine ih ⟨?_, chunks ++ [chunk], ?_, ?_⟩ ?_ whole' pre_le' lt_later
                beyond_gt' clear' n
              · change m.origin ≤ o.id.end
                omega
              · exact List.rel_append slices (.cons (hands.slice m.table) .nil)
              · have after_o : ∀ tx ∈ txs ++ beyond, o.id.end < tx.commit := by
                  intro tx mem
                  cases List.mem_append.mp mem with
                  | inl mem => exact lt_later tx mem
                  | inr mem => exact beyond_gt o (.head _) tx mem
                have after_start : ∀ tx ∈ chunk ++ (txs ++ beyond), startLsn < tx.commit := by
                  intro tx mem
                  cases List.mem_append.mp mem with
                  | inl mem => exact txs_gt tx (List.mem_append_left _ mem)
                  | inr mem => exact lt_of_le_of_lt start_le (after_o tx mem)
                have all_chunk : chunk.filter (fun tx => m.origin < tx.commit) = chunk := by
                  rw [List.filter_eq_self]
                  intro tx mem
                  have gt := after_start tx (List.mem_append_left _ mem)
                  rw [decide_eq_true_eq]
                  omega
                calc (chunks ++ [chunk]).flatten
                  _ = chunks.flatten ++ chunk := by rw [List.flatten_append, List.flatten_singleton]
                  _ = pre.filter (fun tx => m.origin < tx.commit) ++ chunk := by
                    rw [applied, mark, whole', List.append_assoc, List.append_assoc,
                      filter_cut pre_le after_start]
                  _ = (pre ++ chunk).filter (fun tx => m.origin < tx.commit) := by
                    rw [List.filter_append, all_chunk]
                  _ = history.filter (fun tx => m.origin < tx.commit ∧ tx.commit ≤ o.id.end) := by
                    rw [whole', List.append_assoc, filter_cut pre_le' after_o]
              · change o.id.end = max o.id.end floor
                omega
      · rw [sent, List.filter_cons_of_neg (by simpa using moves), ← sent]
        have still : o.id.end = startLsn := by omega
        exact ih once (by rw [still]; exact level) whole' pre_le' lt_later beyond_gt' clear' n

/-- One run keeps every member at exactly once. -/
theorem GroupRun.once {ms ms' : List (Member W)} {s : Pass}
    {keyCols : String → Option (List String)}
    (ran : GroupRun β keyCols history ms s os ms') (clear : s.uncrossed keyCols = true)
    (once : ∀ m ∈ ms, m.Once β history) : ∀ m ∈ ms', m.Once β history := by
  obtain ⟨final, past, later, legal, whole, past_le, later_gt⟩ := ran.serves
  obtain ⟨⟨later', cuts⟩, ends⟩ := legal.partitions ran.ran
  obtain ⟨_, committed, past_start, -⟩ := Server.extends_run legal.stream
  have sent_gt : ∀ tx ∈ final.committed, s.wm < tx.commit := by
    rw [committed]
    exact past_start
  have apart := legal.no_straddle clear ran.ran
  have floors := ran.floors
  intro m' mem'
  obtain ⟨i, at_i⟩ := List.getElem?_of_mem mem'
  obtain ⟨len, each⟩ := List.forall₂_iff_get.mp ran.closes
  obtain ⟨bound, at_i⟩ := List.getElem?_eq_some_iff.mp at_i
  obtain ⟨n, closed⟩ := each i (len ▸ bound) bound
  have mem : ms[i] ∈ ms := List.getElem_mem (len ▸ bound)
  have there : ms[i].watermark ∈ s.floors := floors ▸ List.mem_map_of_mem mem
  have lowest := legal.lowest _ there
  rw [← at_i]
  rw [List.get_eq_getElem, List.get_eq_getElem] at closed
  rw [closed]
  exact (once _ mem).applyWindows cuts (by omega) whole past_le sent_gt
    (fun o mem tx there => lt_of_le_of_lt (ends o mem) (later_gt tx there))
    (fun o mem => apart o mem _ there) n

end once

end group

/-- Over any number of runs whose passes are all uncrossed, some of whose closes
fail, every member has applied every transaction up to its watermark once; and each
window of such a pass is skipped whole by a member, or begins where it stands or behind. -/
theorem group_applies_once {β W : Type} [WindowBody W] [DrainBody β W]
    {keyCols : String → Option (List String)} {history : List Tx} {ms ms' : List (Member W)}
    (fresh : ∀ m ∈ ms, m.applied = [] ∧ m.origin = m.watermark)
    (runs : GroupRuns β keyCols history (fun s => s.uncrossed keyCols = true) ms ms') :
    (∀ m ∈ ms', m.Once β history) ∧
      ∀ s os ms'', GroupRun β keyCols history ms' s os ms'' → s.uncrossed keyCols = true →
        ∀ o ∈ os, ∀ f ∈ s.floors,
          o.id.end ≤ f ∧ ¬s.dest.applies f o.id.end ∨ f ≤ o.id.start := by
  constructor
  · induction runs with
    | start =>
        intro m mem
        obtain ⟨applied, origin⟩ := fresh m mem
        refine ⟨Nat.le_of_eq origin, [], applied ▸ .nil, ?_⟩
        rw [List.flatten_nil, eq_comm, List.filter_eq_nil_iff]
        intro tx _
        rw [decide_eq_true_eq]
        omega
    | run before met ran ih => exact ran.once met ih
  · intro s os ms'' ran clear
    obtain ⟨final, past, later, legal, -⟩ := ran.serves
    exact legal.no_straddle clear ran.ran

namespace Sample

/-- A transaction that inserts one row. -/
def inserts (id body : UInt8) (commit : Nat) : List WalEvent :=
  [.xlogData .begin none, .xlogData (.relation relation) none,
    .xlogData (.insert 7 (image id body)) none, .xlogData (.commit commit) none]

def insertTx (id body : UInt8) (commit : Nat) : Tx :=
  ⟨[("public.t", .insert (image id body))], commit⟩

/-- What the source commits. -/
def twoInserts : List Tx := [insertTx 1 10 20, insertTx 2 20 30]

/-- Both members are at 10; a keepalive closes the pass at 25. -/
def levelPass (dest : Slot.Store) : Pass where
  dest := dest
  floors := [10, 10]
  wm := 10
  stop := 25
  expected _ := none
  events := inserts 1 10 20 ++ [.keepalive 25 false]
  calls := [drainTo 25]

/-- One member closed that window, the other did not: the same window again, as far as the cap. -/
def cappedPass (dest : Slot.Store) : Pass := { levelPass dest with floors := [25, 10] }

/-- One member closed that window, the other did not. The transaction that
commits at 30 is the first stop past 25. -/
def tornPass : Pass where
  dest := .pg
  floors := [25, 10]
  wm := 10
  stop := 40
  expected _ := none
  events := inserts 1 10 20 ++ inserts 2 20 30 ++ [.keepalive 40 false]
  calls := [drainTo 40]

/-- The rows a slice upserts. -/
def upserted (slice : Option (TableWindow Collapsed)) : Option (List (List Cell)) :=
  slice.map fun w => w.body.upserts.map Tuple.toCells

/-- A pass's windows, each with the rows of `public.t` it hands over. -/
def passRows (s : Pass) : Option (List (WindowId × Option (List (List Cell)))) :=
  match s.windows Collapser with
  | .ok os => some (os.map fun o => (o.id, upserted (o.slice "public.t")))
  | .error _ => none

/-- Two members at one height, before the first run. -/
def level : List (Member Collapsed) := [⟨"public.t", 10, 10, []⟩, ⟨"public.u", 10, 10, []⟩]

theorem window_of_passRows {s : Pass} {id : WindowId} {rows : Option (List (List Cell))}
    (computed : passRows s = some [(id, rows)]) :
    ∃ o, s.windows Collapser = .ok [o] ∧ o.id = id ∧ upserted (o.slice "public.t") = rows := by
  rw [passRows] at computed
  split at computed
  · rename_i os ran
    obtain ⟨o, one, same⟩ := List.map_eq_singleton_iff.mp (Option.some.inj computed)
    obtain ⟨rfl, rfl⟩ := Prod.mk.inj same
    exact ⟨o, one ▸ ran, rfl, rfl⟩
  · cases computed

end Sample

set_option maxRecDepth 4000 in
/-- What the source sends in a pass to the keepalive. -/
private theorem serves_keepalive {s : Pass} (events : s.events = (Sample.levelPass .pg).events)
    (wm : s.wm = 10) (calls : s.calls = [Sample.drainTo 25]) (lowest : ∀ f ∈ s.floors, 10 ≤ f) :
    ∃ final past later, s.Legal Sample.keyCols final ∧
      Sample.twoInserts = past ++ final.committed ++ later ∧ (∀ tx ∈ past, tx.commit ≤ s.wm) ∧
      ∀ tx ∈ later, final.horizon < tx.commit := by
  have sends : ((Server.start 10).run? Sample.keyCols (Sample.levelPass .pg).events).map (fun sv =>
      (sv.committed, sv.horizon)) = some ([Sample.insertTx 1 10 20], 25) := by decide
  obtain ⟨final, stream, same⟩ := Option.map_eq_some_iff.mp sends
  obtain ⟨committed, horizon⟩ := Prod.mk.inj same
  refine ⟨final, [], [Sample.insertTx 2 20 30], ⟨?_, ?_, ?_⟩, ?_, fun tx mem => (by cases mem), ?_⟩
  · rw [wm]
    exact lowest
  · rw [calls]
    simp [Sample.drainTo]
  · rw [wm, events]
    exact stream
  · rw [committed]
    rfl
  · rw [horizon]
    decide

set_option maxRecDepth 4000 in
/-- The first run: one member closes the window to the keepalive, the other fails. -/
private theorem level_run (dest : Slot.Store) : ∃ o : DrainOutcome Collapsed,
    o.id = ⟨10, 25⟩ ∧ Sample.upserted (o.slice "public.t") = some [Sample.row 1 10] ∧
    GroupRun Collapser Sample.keyCols Sample.twoInserts Sample.level (Sample.levelPass dest) [o]
      [⟨"public.t", 10, 25, [o.slice "public.t"]⟩, ⟨"public.u", 10, 10, []⟩] := by
  have computed : Sample.passRows (Sample.levelPass .pg) =
      some [(⟨10, 25⟩, some [Sample.row 1 10])] := by decide
  obtain ⟨o, ran, id, rows⟩ := Sample.window_of_passRows computed
  have lowest : ∀ f ∈ (Sample.levelPass dest).floors, 10 ≤ f := by
    intro f mem
    revert f
    change ∀ f ∈ [10, 10], 10 ≤ f
    decide
  refine ⟨o, id, rows, rfl, serves_keepalive rfl rfl rfl lowest, ran, .cons ⟨1, ?_⟩
    (.cons ⟨0, rfl⟩ .nil)⟩
  simp [sent, Member.applyMember, Slot.Store.applies, id, Sample.levelPass]

set_option maxRecDepth 4000 in
/-- After the run above the second one drains a window across the watermark 25,
and the member that stood there applies the transaction that committed at 20
again. On BigQuery it does so also when the window ends at its watermark. -/
theorem group_window_straddles :
    (∃ (ms₁ ms₂ : List (Member Collapsed)) (o₁ o₂ : DrainOutcome Collapsed),
      GroupRun Collapser Sample.keyCols Sample.twoInserts Sample.level (Sample.levelPass .pg) [o₁]
        ms₁ ∧
      GroupRun Collapser Sample.keyCols Sample.twoInserts ms₁ Sample.tornPass [o₂] ms₂ ∧
      o₂.id = ⟨10, 30⟩ ∧ 25 ∈ Sample.tornPass.floors ∧
      ∃ m ∈ ms₂, m.applied.map Sample.upserted =
        [some [Sample.row 1 10], some [Sample.row 1 10, Sample.row 2 20]]) ∧
    ∃ (ms₁ ms₂ : List (Member Collapsed)) (o₁ o₂ : DrainOutcome Collapsed),
      GroupRun Collapser Sample.keyCols Sample.twoInserts Sample.level (Sample.levelPass .bq) [o₁]
        ms₁ ∧
      GroupRun Collapser Sample.keyCols Sample.twoInserts ms₁ (Sample.cappedPass .bq) [o₂] ms₂ ∧
      o₂.id = ⟨10, 25⟩ ∧ 25 ∈ (Sample.cappedPass .bq).floors ∧
      ∃ m ∈ ms₂, m.applied.map Sample.upserted =
        [some [Sample.row 1 10], some [Sample.row 1 10]] := by
  constructor
  · obtain ⟨o₁, -, rows₁, run₁⟩ := level_run .pg
    have computed : Sample.passRows Sample.tornPass =
        some [(⟨10, 30⟩, some [Sample.row 1 10, Sample.row 2 20])] := by decide
    have sends : ((Server.start 10).run? Sample.keyCols Sample.tornPass.events).map
        Server.committed = some Sample.twoInserts := by decide
    obtain ⟨o₂, ran, id, rows⟩ := Sample.window_of_passRows computed
    obtain ⟨final, stream, committed⟩ := Option.map_eq_some_iff.mp sends
    refine ⟨_, [⟨"public.t", 10, 30, [o₁.slice "public.t", o₂.slice "public.t"]⟩,
      ⟨"public.u", 10, 10, []⟩], o₁, o₂, run₁, ⟨rfl, ⟨final, [], [],
      ⟨by decide, by simp [Sample.tornPass, Sample.drainTo], stream⟩, ?_, nofun, nofun⟩, ran,
      .cons ⟨1, ?_⟩ (.cons ⟨0, rfl⟩ .nil)⟩, id, by decide, _, .head _, ?_⟩
    · rw [committed, List.nil_append, List.append_nil]
    · simp [sent, Member.applyMember, Slot.Store.applies, id, Sample.tornPass]
    · simp [rows₁, rows]
  · obtain ⟨o₁, -, rows₁, run₁⟩ := level_run .bq
    have computed : Sample.passRows (Sample.cappedPass .bq) =
        some [(⟨10, 25⟩, some [Sample.row 1 10])] := by decide
    obtain ⟨o₂, ran, id, rows⟩ := Sample.window_of_passRows computed
    have lowest : ∀ f ∈ (Sample.cappedPass .bq).floors, 10 ≤ f := by decide
    refine ⟨_, [⟨"public.t", 10, 25, [o₁.slice "public.t", o₂.slice "public.t"]⟩,
      ⟨"public.u", 10, 25, [o₂.slice "public.u"]⟩], o₁, o₂, run₁,
      ⟨rfl, serves_keepalive rfl rfl rfl lowest, ran, .cons ⟨1, ?_⟩ (.cons ⟨1, ?_⟩ .nil)⟩, id,
      by decide, _, .head _, ?_⟩
    · simp [sent, Member.applyMember, Slot.Store.applies, id, Sample.cappedPass, Sample.levelPass]
    · simp [sent, Member.applyMember, Slot.Store.applies, id, Sample.cappedPass, Sample.levelPass]
    · simp [rows₁, rows]

set_option maxRecDepth 4000 in
/-- The run above, followed by nothing, is uncrossed. -/
theorem group_applies_once_level : ∃ ms' : List (Member Collapsed),
    ms'.map Member.watermark = [25, 10] ∧
    (∀ m ∈ ms', m.Once Collapser Sample.twoInserts) ∧
      ∀ s os ms'', GroupRun Collapser Sample.keyCols Sample.twoInserts ms' s os ms'' →
        s.uncrossed Sample.keyCols = true →
        ∀ o ∈ os, ∀ f ∈ s.floors,
          o.id.end ≤ f ∧ ¬s.dest.applies f o.id.end ∨ f ≤ o.id.start := by
  obtain ⟨o, -, -, ran⟩ := level_run .pg
  have fresh : ∀ m ∈ Sample.level, m.applied = [] ∧ m.origin = m.watermark := by decide
  exact ⟨_, rfl, group_applies_once fresh (.run .start (by decide) ran)⟩

end Apitap
