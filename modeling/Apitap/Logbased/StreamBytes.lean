import Apitap.Foundation.Tally
import Apitap.Logbased.DrainPartition

/-!
# What streamed transactions hold

A session counts the bytes of the streamed transactions it buffers: a row change is charged as
it comes, a commit and an abort release what they take away. Over a legal stream the count is
the bytes buffered in every state of every drain. A change that a drain refuses for its size is
charged and not kept, and the drain fails with that.
-/

namespace Apitap

open Foundation Tally

variable {β W : Type} [WindowBody W] [DrainBody β W]

/-- The bytes of a streamed transaction's ops. -/
def streamedBytes (ops : List (Nat × StreamOp × Nat)) : Nat :=
  (ops.map fun o => opBytes o.2.1).sum

/-- What a row change's arm of the drain adds to the count. -/
def PgoMessage.charge : PgoMessage → Nat
  | .insert _ new => cellsBytes new
  | .update _ old new => cellsBytes new + (old.map OldImage.tuple).elim 0 cellsBytes
  | .delete _ old => cellsBytes old.tuple
  | _ => 0

/-- Each arm charges what its op weighs when it is released. -/
theorem PgoMessage.opBytes_eq_charge {msg : PgoMessage} {change : Nat × StreamOp}
    (mem : change ∈ msg.changes) : opBytes change.2 = msg.charge := by
  cases msg with
  | insert | update | delete =>
      rw [List.mem_singleton.mp mem]
      rfl
  | truncate relIds =>
      obtain ⟨relId, -, rfl⟩ := List.mem_map.mp mem
      rfl
  | _ => cases mem

namespace DrainSession

/-- The bytes of all ops that a session buffers for streamed transactions. -/
def held (sess : DrainSession) : Nat := tally streamedBytes sess.streams

/-- The session counts what it buffers. -/
def Exact (sess : DrainSession) : Prop := sess.streamBytes = sess.held

/-- Nothing that can be released of a streamed transaction is more than the count. -/
def Unsaturated (sess : DrainSession) : Prop := ∀ xid ops, sess.streams.lookup xid = some ops →
  ∀ gone, streamedBytes (ops.filter gone) ≤ sess.streamBytes

/-- A streamed transaction is taken out of the session. -/
def release (sess : DrainSession) (xid : Nat) : DrainSession :=
  { sess with
    streams := sess.streams.erase xid
    streamBytes := sess.streamBytes - streamedBytes ((sess.streams.lookup xid).getD []) }

/-- The bytes of a row change that went over the limit are charged, and it is not kept. -/
def Refused (sess : DrainSession) (e : Error) : Prop := ∃ op limit,
  e = streamsTooBig sess.streams.keys.length sess.streamBytes limit ∧ limit < sess.streamBytes ∧
    sess.streamBytes = sess.held + opBytes op

end DrainSession

/-! ## Buffers that change -/

theorem streamedBytes_append (ops ops' : List (Nat × StreamOp × Nat)) :
    streamedBytes (ops ++ ops') = streamedBytes ops + streamedBytes ops' := by
  rw [streamedBytes, List.map_append, List.sum_append]
  rfl

theorem streamedBytes_filter (ops : List (Nat × StreamOp × Nat)) (gone : _ → Bool) :
    streamedBytes (ops.filter gone) + streamedBytes (ops.filter fun o => !gone o) =
      streamedBytes ops := by
  induction ops with
  | nil => rfl
  | cons op ops ih =>
      have whole : streamedBytes (op :: ops) = opBytes op.2.1 + streamedBytes ops := rfl
      cases goes : gone op with
      | true =>
          rw [List.filter_cons_of_pos goes, List.filter_cons_of_neg (by simp [goes]), whole, ← ih,
            ← Nat.add_assoc]
          rfl
      | false =>
          rw [List.filter_cons_of_neg (by simp [goes]), List.filter_cons_of_pos (by simp [goes]),
            whole, ← ih, Nat.add_left_comm]
          rfl

namespace DrainSession

variable {sess sess' : DrainSession} {xid : Nat} {ops : List (Nat × StreamOp × Nat)}

theorem unsaturated_of_held_le (counted : sess.held ≤ sess.streamBytes) : sess.Unsaturated := by
  intro xid ops there gone
  have part := streamedBytes_filter ops gone
  have whole : streamedBytes ops ≤ sess.held := le_tally streamedBytes there
  omega

theorem Exact.expecting (expected : String → Option (Nat × String)) :
    (DrainSession.expecting expected).Exact := rfl

theorem Exact.congr (exact : sess.Exact) (streams : sess'.streams = sess.streams)
    (bytes : sess'.streamBytes = sess.streamBytes) : sess'.Exact := by
  rw [Exact, held, streams, bytes]
  exact exact

/-- A streamed transaction is put in, or replaced. -/
theorem Exact.put (exact : sess.Exact) {bytes : Nat}
    (moves : bytes + (sess.streams.lookup xid).elim 0 streamedBytes =
      sess.streamBytes + streamedBytes ops) :
    ({ sess with streamBytes := bytes, streams := sess.streams.insert xid ops } :
      DrainSession).Exact := by
  have weighs := tally_insert streamedBytes (s := sess.streams) (a := xid) (b := ops)
  have counted : sess.streamBytes = tally streamedBytes sess.streams := exact
  change bytes = tally streamedBytes (sess.streams.insert xid ops)
  omega

theorem Exact.release (exact : sess.Exact) (xid : Nat) : (sess.release xid).Exact := by
  have weighs := tally_erase streamedBytes (s := sess.streams) (a := xid)
  have counted : sess.streamBytes = tally streamedBytes sess.streams := exact
  change sess.streamBytes - streamedBytes ((sess.streams.lookup xid).getD []) =
    tally streamedBytes (sess.streams.erase xid)
  cases found : sess.streams.lookup xid with
  | none =>
      rw [found, Option.elim_none] at weighs
      rw [Option.getD_none, streamedBytes, List.map_nil, List.sum_nil]
      omega
  | some ops =>
      rw [found, Option.elim_some] at weighs
      rw [Option.getD_some]
      omega

theorem Exact.abort (exact : sess.Exact) (xid subXid : Nat) :
    (Drain.abort sess xid subXid).Exact := by
  rw [Drain.abort]
  cases found : sess.streams.lookup xid with
  | none => exact exact
  | some ops =>
      by_cases top : subXid = xid
      · have all : (ops.filter fun o => o.2.2 = subXid ∨ subXid = xid) = ops := by
          simp [top]
        have released := exact.release xid
        rw [DrainSession.release, found] at released
        simp only [all, if_pos top]
        exact released
      · have some_gone : (ops.filter fun o => o.2.2 = subXid ∨ subXid = xid) =
            ops.filter fun o => o.2.2 = subXid := by
          simp [top]
        have kept : (ops.filter fun o => o.2.2 ≠ subXid) =
            ops.filter fun o => !decide (o.2.2 = subXid) := by
          simp
        have parts := streamedBytes_filter ops fun o => o.2.2 = subXid
        have whole : streamedBytes ops ≤ sess.streamBytes :=
          (le_tally streamedBytes found).trans exact.ge
        simp only [some_gone, kept, if_neg top]
        apply exact.put
        rw [found, Option.elim_some]
        change sess.streamBytes - streamedBytes (ops.filter fun o => o.2.2 = subXid) + _ = _
        omega

end DrainSession

/-! ## A drain that fails -/

namespace Drain

/-- The session that a row change leaves where it fails. -/
def brokenRow (d : Drain β) (relId : Nat) (op : StreamOp) : DrainSession :=
  match d.sess.tracked relId with
  | .error _ => d.sess
  | .ok (_, sess) =>
      if d.inStream.isSome then { sess with streamBytes := sess.streamBytes + opBytes op }
      else sess

def brokenTruncate (p : DrainCall) (sub : Option Nat) : Drain β → List Nat → DrainSession
  | d, [] => d.sess
  | d, id :: ids =>
      match d.rowChange p sub false id .truncate with
      | .error _ => d.brokenRow id .truncate
      | .ok d => brokenTruncate p sub d ids

/-- The session that an event leaves where it fails. -/
def broken (p : DrainCall) (d : Drain β) : WalEvent → DrainSession
  | .xlogData (.insert relId new) _ => d.brokenRow relId (.insert new)
  | .xlogData (.update relId old new) _ =>
      d.brokenRow relId (.update (old.map OldImage.tuple) new (old.any OldImage.full))
  | .xlogData (.delete relId old) _ => d.brokenRow relId (.delete old.tuple)
  | .xlogData (.truncate relIds) changeXid => d.brokenTruncate p (changeXid.or d.inStream) relIds
  | .xlogData (.streamCommit xid _) _ => d.sess.release xid
  | _ => d.sess

end Drain

/-- A session between two drains, in the loop of one, behind the loop, or left by a drain that
failed. -/
inductive Life (β : Type) where
  | between (sess : DrainSession) (events : List WalEvent)
  | reading (p : DrainCall) (turn : Nat) (d : Drain β) (events : List WalEvent)
  | read (d : Drain β) (events : List WalEvent)
  | failed (sess : DrainSession) (e : Error)

namespace Life

/-- The session of a state. -/
def sess : Life β → DrainSession
  | between sess _ | failed sess _ => sess
  | reading _ _ d _ | read d _ => d.sess

/-- One step of a drain. -/
inductive Step : Life β → Life β → Prop
  | starts {sess : DrainSession} {lsn : Nat} {events : List WalEvent} {p : DrainCall} {d : Drain β}
      (is : Drain.start p sess lsn = .ok (d, false)) :
      Step (between sess events) (reading p 0 d events)
  | carried {sess : DrainSession} {lsn : Nat} {events : List WalEvent} {p : DrainCall}
      {d : Drain β} (is : Drain.start p sess lsn = .ok (d, true)) :
      Step (between sess events) (read d events)
  | startFails {sess : DrainSession} {lsn : Nat} {events : List WalEvent} {p : DrainCall}
      {e : Error} (is : (Drain.start p sess lsn : Except Error (Drain β × Bool)) = .error e) :
      Step (between sess events) (failed { sess with carry := none } e)
  | ends {p : DrainCall} {turn : Nat} {d : Drain β} : Step (reading p turn d []) (read d [])
  | stops {p : DrainCall} {turn : Nat} {d : Drain β} {ev : WalEvent} {events : List WalEvent}
      (stopping : (p.moment turn).stopping = true ∧ d.idle = true) :
      Step (reading p turn d (ev :: events)) (read d (ev :: events))
  | faults {p : DrainCall} {turn : Nat} {d : Drain β} {ev : WalEvent} {events : List WalEvent}
      {e : Error} (goes : ¬ ((p.moment turn).stopping = true ∧ d.idle = true))
      (fault : (p.moment turn).fault = some e) :
      Step (reading p turn d (ev :: events)) (failed d.sess e)
  | event {p : DrainCall} {turn : Nat} {d d' : Drain β} {ev : WalEvent} {events : List WalEvent}
      (goes : ¬ ((p.moment turn).stopping = true ∧ d.idle = true))
      (calm : (p.moment turn).fault = none)
      (is : d.event p (p.moment turn) ev = .ok (d', false)) :
      Step (reading p turn d (ev :: events)) (reading p (turn + 1) d' events)
  | last {p : DrainCall} {turn : Nat} {d d' : Drain β} {ev : WalEvent} {events : List WalEvent}
      (goes : ¬ ((p.moment turn).stopping = true ∧ d.idle = true))
      (calm : (p.moment turn).fault = none)
      (is : d.event p (p.moment turn) ev = .ok (d', true)) :
      Step (reading p turn d (ev :: events)) (read d' events)
  | breaks {p : DrainCall} {turn : Nat} {d : Drain β} {ev : WalEvent} {events : List WalEvent}
      {e : Error} (goes : ¬ ((p.moment turn).stopping = true ∧ d.idle = true))
      (calm : (p.moment turn).fault = none) (is : d.event p (p.moment turn) ev = .error e) :
      Step (reading p turn d (ev :: events)) (failed (d.broken p ev) e)
  | seals {d : Drain β} {events : List WalEvent} {bodies : List (String × TableWindow W)}
      (is : d.sealBodies = .ok bodies) :
      Step (read d events) (between d.sess events)
  | sealFails {d : Drain β} {events : List WalEvent} {e : Error}
      (is : (d.sealBodies : Except Error (List (String × TableWindow W))) = .error e) :
      Step (read d events) (failed d.sess e)

/-- The states of a session that drains come to. -/
abbrev Reaches : Life β → Life β → Prop := Relation.ReflTransGen Step

end Life

/-! ## What an event keeps -/

section events

variable {p : DrainCall} {d d' : Drain β} {sv sv' : Server} {sub : Option Nat} {weighed : Bool}
  {keyCols : String → Option (List String)} {e : Error}

/-- The session counts the same buffers. -/
def DrainSession.SameBuffers (sess sess' : DrainSession) : Prop :=
  sess'.streams = sess.streams ∧ sess'.streamBytes = sess.streamBytes

theorem DrainSession.tracked_buffers {sess sess' : DrainSession} {relId : Nat} {slot : Option Nat}
    (found : sess.tracked relId = .ok (slot, sess')) : sess.SameBuffers sess' := by
  rw [tracked] at found
  split at found
  · cases found
  · cases found
    exact ⟨rfl, rfl⟩

namespace Drain

/-- The drain reads in the block it read in, and kept all streamed transactions. -/
structure Continues (d d' : Drain β) : Prop where
  block : d'.inStream = d.inStream
  kept : ∀ x, (d.sess.streams.lookup x).isSome → (d'.sess.streams.lookup x).isSome

theorem Continues.trans {d'' : Drain β} (first : d.Continues d') (second : d'.Continues d'') :
    d.Continues d'' :=
  ⟨second.block.trans first.block, fun x there => second.kept x (first.kept x there)⟩

/-- The drain is in the block that the server is in, and the block's buffer is there. -/
structure Follows (d : Drain β) (sv : Server) : Prop where
  block : d.inStream = sv.block
  opened : ∀ x, d.inStream = some x → (d.sess.streams.lookup x).isSome

theorem Follows.continues (follows : d.Follows sv) (continues : d.Continues d')
    (block : sv'.block = sv.block) : d'.Follows sv' := by
  refine ⟨continues.block.trans (follows.block.trans block.symm), ?_⟩
  intro x inside
  apply continues.kept
  apply follows.opened
  exact continues.block.symm.trans inside

/-- A row change is kept as it is charged. -/
theorem bufferOp_ok {t : Nat} {op : StreamOp} (exact : d.sess.Exact)
    (is : d.bufferOp p sub weighed t op = .ok d') : d'.sess.Exact ∧ d.Continues d' := by
  cases inside : d.inStream with
  | none =>
      simp only [bufferOp, inside] at is
      split at is
      · cases is
      · cases is
        exact ⟨exact, inside.symm, fun x there => there⟩
  | some x =>
      simp only [bufferOp, inside] at is
      split at is
      · cases is
      · obtain ⟨ops, opened, rfl⟩ := map_eq_ok.mp is
        have found : d.sess.streams.lookup x = some ops := by
          rw [DrainSession.openStream] at opened
          split at opened
          · cases opened
            assumption
          · cases opened
        refine ⟨?_, inside.symm, ?_⟩
        · apply exact.put
          have one : streamedBytes [(t, op, sub.getD x)] = opBytes op := Nat.add_zero _
          rw [found, Option.elim_some, streamedBytes_append, one]
          omega
        · intro y there
          by_cases same : y = x
          · rw [same]
            change ((d.sess.streams.insert x _).lookup x).isSome
            rw [AList.lookup_insert]
            rfl
          · change ((d.sess.streams.insert x _).lookup y).isSome
            rw [AList.lookup_insert_ne same]
            exact there

/-- A row change that is refused in an open block went over the limit. -/
theorem bufferOp_error {t : Nat} {op : StreamOp} {x : Nat} (inside : d.inStream = some x)
    (opened : (d.sess.streams.lookup x).isSome)
    (is : d.bufferOp p sub weighed t op = .error e) :
    p.txLimit < d.sess.streamBytes + opBytes op ∧
      e = streamsTooBig d.sess.streams.keys.length (d.sess.streamBytes + opBytes op) p.txLimit := by
  obtain ⟨ops, found⟩ := Option.isSome_iff_exists.mp opened
  simp only [bufferOp, inside] at is
  split at is
  · rename_i exceeds
    cases is
    exact ⟨of_decide_eq_true (Bool.and_eq_true_iff.mp exceeds).2, rfl⟩
  · rw [DrainSession.openStream, found] at is
    cases is

theorem rowChange_ok {relId : Nat} {op : StreamOp} (exact : d.sess.Exact)
    (is : d.rowChange p sub weighed relId op = .ok d') : d'.sess.Exact ∧ d.Continues d' := by
  obtain ⟨⟨slot, sess⟩, found, is⟩ := bind_eq_ok.mp is
  obtain ⟨streams, bytes⟩ := DrainSession.tracked_buffers found
  have exact' : sess.Exact := exact.congr streams bytes
  have continues : d.Continues { d with sess := sess } := by
    refine ⟨rfl, ?_⟩
    intro x there
    change (sess.streams.lookup x).isSome
    rw [streams]
    exact there
  cases slot with
  | none =>
      cases is
      exact ⟨exact', continues⟩
  | some t =>
      obtain ⟨exact'', onward⟩ := bufferOp_ok exact' is
      exact ⟨exact'', continues.trans onward⟩

theorem rowChange_error {relId : Nat} {op : StreamOp} (exact : d.sess.Exact)
    (opened : ∀ x, d.inStream = some x → (d.sess.streams.lookup x).isSome)
    (is : d.rowChange p sub weighed relId op = .error e) :
    (d.brokenRow relId op).Exact ∨ (d.brokenRow relId op).Refused e := by
  rw [rowChange] at is
  rw [brokenRow]
  cases found : d.sess.tracked relId with
  | error e' => exact .inl exact
  | ok result =>
      obtain ⟨slot, sess⟩ := result
      obtain ⟨streams, bytes⟩ := DrainSession.tracked_buffers found
      rw [found] at is
      cases inside : d.inStream with
      | none =>
          exact .inl (exact.congr streams bytes)
      | some x =>
          have opened' : (sess.streams.lookup x).isSome := by
            rw [streams]
            exact opened x inside
          cases slot with
          | none => cases is
          | some t =>
              obtain ⟨exceeds, rfl⟩ :=
                bufferOp_error (d := { d with sess := sess }) inside opened' is
              have counted : sess.streamBytes = sess.held := exact.congr streams bytes
              refine .inr ⟨op, p.txLimit, rfl, exceeds, ?_⟩
              change sess.streamBytes + opBytes op = sess.held + opBytes op
              rw [counted]

theorem truncate_ok {ids : List Nat} (exact : d.sess.Exact)
    (is : ids.foldlM (fun (d : Drain β) id => d.rowChange p sub false id .truncate) d = .ok d') :
    d'.sess.Exact ∧ d.Continues d' := by
  induction ids generalizing d with
  | nil =>
      cases is
      exact ⟨exact, rfl, fun x there => there⟩
  | cons id ids ih =>
      obtain ⟨d₁, one, more⟩ := bind_eq_ok.mp is
      obtain ⟨exact₁, first⟩ := rowChange_ok exact one
      obtain ⟨exact', rest⟩ := ih exact₁ more
      exact ⟨exact', first.trans rest⟩

theorem truncate_error {ids : List Nat} (exact : d.sess.Exact)
    (opened : ∀ x, d.inStream = some x → (d.sess.streams.lookup x).isSome)
    (is : ids.foldlM (fun (d : Drain β) id => d.rowChange p sub false id .truncate) d =
      .error e) :
    (brokenTruncate p sub d ids).Exact ∨ (brokenTruncate p sub d ids).Refused e := by
  induction ids generalizing d with
  | nil => cases is
  | cons id ids ih =>
      rw [List.foldlM_cons] at is
      rw [brokenTruncate]
      cases one : d.rowChange p sub false id .truncate with
      | error e' =>
          rw [one] at is
          cases is
          exact rowChange_error exact opened one
      | ok d₁ =>
          rw [one] at is
          obtain ⟨exact₁, first⟩ := rowChange_ok exact one
          refine ih exact₁ ?_ is
          intro x inside
          exact first.kept x (opened x (first.block.symm.trans inside))

theorem relation_ok {r : Relation} (exact : d.sess.Exact) (is : d.relation p r = .ok d') :
    d'.sess.Exact ∧ d.Continues d' := by
  obtain ⟨layout, -, is⟩ := bind_eq_ok.mp is
  obtain ⟨_, -, is⟩ := bind_eq_ok.mp is
  obtain ⟨⟨s, sess⟩, placed, is⟩ := bind_eq_ok.mp is
  have same : d.sess.SameBuffers sess := by
    rw [DrainSession.relSlot] at placed
    split at placed
    · cases placed
      exact ⟨rfl, rfl⟩
    · split at placed
      · cases placed
        exact ⟨rfl, rfl⟩
      · cases placed
  obtain ⟨streams, bytes⟩ := same
  cases is
  refine ⟨exact.congr streams bytes, rfl, ?_⟩
  intro x there
  change (sess.streams.lookup x).isSome
  rw [streams]
  exact there

theorem commit_ok {ops : TxOps} {n at_ : Nat} {stop : Bool}
    (is : d.commit p ops n at_ = .ok (d', stop)) :
    d'.inStream = d.inStream ∧ d.sess.SameBuffers d'.sess := by
  rw [commit] at is
  split at is
  · cases is
    exact ⟨rfl, rfl, rfl⟩
  · obtain ⟨bodies, -, done⟩ := map_eq_ok.mp is
    dsimp only at done
    split at done
    · cases done
      exact ⟨rfl, rfl, rfl⟩
    · split at done <;> cases done <;> exact ⟨rfl, rfl, rfl⟩

/-- A row change is sent in the block that is open. -/
theorem block_change {ops : List (String × StreamOp)} {by_ : Option Nat}
    (legal : sv.change by_ ops = some sv') : sv'.block = sv.block := by
  rw [Server.change] at legal
  split at legal
  · obtain ⟨u, -, legal⟩ := Option.bind_eq_some_iff.mp legal
    obtain ⟨sent, -, rfl⟩ := Option.map_eq_some_iff.mp legal
    rfl
  · obtain ⟨sent, -, rfl⟩ := Option.map_eq_some_iff.mp legal
    rfl

theorem block_commit {ops : List (String × StreamOp)} {at_ : Nat}
    (legal : sv.commit ops at_ = some sv') : sv'.block = sv.block := by
  rw [Server.commit] at legal
  split at legal
  · cases legal
    rfl
  · cases legal

theorem block_between (between : sv.between = true) : sv.block = none :=
  (Server.between_iff.mp between).2

/-- Outside a block the drain follows whatever it holds. -/
theorem Follows.outside (block : d.inStream = none) (outside : sv.block = none) : d.Follows sv := by
  refine ⟨block.trans outside.symm, ?_⟩
  intro x inside
  rw [block] at inside
  cases inside

/-- After an event the session is exact, and the drain stops outside stream blocks only. -/
structure Goes (d : Drain β) (sv : Server) (stop : Bool) : Prop where
  exact : d.sess.Exact
  follows : d.Follows sv
  stops : stop = true → sv.block = none

theorem message_ok {msg : PgoMessage} {changeXid : Option Nat} {stop : Bool} (exact : d.sess.Exact)
    (follows : d.Follows sv) (legal : sv.step? keyCols (.xlogData msg changeXid) = some sv')
    (is : d.message p msg changeXid = .ok (d', stop)) : d'.Goes sv' stop := by
  have row {relId : Nat} {op : StreamOp} {ops : List (String × StreamOp)}
      (sent : sv.change changeXid ops = some sv')
      (is : (d.rowChange p (changeXid.or d.inStream) true relId op).map (fun d => (d, false)) =
        .ok (d', stop)) : d'.Goes sv' stop := by
    obtain ⟨d₁, ran, done⟩ := map_eq_ok.mp is
    cases done
    obtain ⟨exact', onward⟩ := rowChange_ok exact ran
    exact ⟨exact', follows.continues onward (block_change sent), nofun⟩
  cases msg with
  | begin =>
      rw [Server.step?] at legal
      split at legal
      · cases legal
        cases is
        exact ⟨exact, ⟨follows.block, follows.opened⟩, nofun⟩
      · cases legal
  | commit at_ =>
      rw [Server.step?] at legal
      split at legal
      · rename_i outside
        obtain ⟨ops, -, legal⟩ := Option.bind_eq_some_iff.mp legal
        have still : sv.block = none := Option.isNone_iff_eq_none.mp outside
        have block : sv'.block = none := (block_commit legal).trans still
        obtain ⟨inStream, streams, bytes⟩ := commit_ok is
        have none_open : d'.inStream = none := inStream.trans (follows.block.trans still)
        exact ⟨exact.congr streams bytes, .outside none_open block, fun _ => block⟩
      · cases legal
  | streamStart xid =>
      rw [Server.step?] at legal
      split at legal
      · cases legal
        cases is
        refine ⟨?_, ⟨rfl, ?_⟩, nofun⟩
        · have same : d.sess.streamBytes + (d.sess.streams.lookup xid).elim 0 streamedBytes =
              d.sess.streamBytes + streamedBytes ((d.sess.streams.lookup xid).getD []) := by
            cases d.sess.streams.lookup xid <;> rfl
          exact exact.put same
        · intro x inside
          cases inside
          change ((d.sess.streams.insert xid _).lookup xid).isSome
          rw [AList.lookup_insert]
          rfl
      · cases legal
  | streamStop =>
      rw [Server.step?] at legal
      split at legal
      · cases legal
        cases is
        exact ⟨exact, .outside rfl rfl, nofun⟩
      · cases legal
  | streamCommit xid at_ =>
      rw [Server.step?] at legal
      split at legal
      · rename_i outside
        obtain ⟨ops, -, legal⟩ := Option.bind_eq_some_iff.mp legal
        have still : sv.block = none := block_between outside
        have block : sv'.block = none := (block_commit legal).trans still
        obtain ⟨inStream, streams, bytes⟩ := commit_ok is
        have none_open : d'.inStream = none := inStream.trans (follows.block.trans still)
        exact ⟨(exact.release xid).congr streams bytes, .outside none_open block, fun _ => block⟩
      · cases legal
  | streamAbort xid subXid =>
      rw [Server.step?] at legal
      split at legal
      · rename_i outside
        cases legal
        cases is
        have still : sv.block = none := block_between outside
        exact ⟨exact.abort xid subXid, .outside (follows.block.trans still) still, nofun⟩
      · cases legal
  | relation r =>
      cases legal
      obtain ⟨d₁, ran, done⟩ := map_eq_ok.mp is
      cases done
      obtain ⟨exact', onward⟩ := relation_ok exact ran
      exact ⟨exact', follows.continues onward rfl, nofun⟩
  | origin | type =>
      cases legal
      cases is
      exact ⟨exact, follows, nofun⟩
  | insert relId new =>
      obtain ⟨ops, -, sent⟩ := Option.bind_eq_some_iff.mp legal
      exact row sent is
  | update relId old new =>
      obtain ⟨ops, -, sent⟩ := Option.bind_eq_some_iff.mp legal
      exact row sent is
  | delete relId old =>
      obtain ⟨ops, -, sent⟩ := Option.bind_eq_some_iff.mp legal
      exact row sent is
  | truncate relIds =>
      obtain ⟨ops, -, sent⟩ := Option.bind_eq_some_iff.mp legal
      obtain ⟨d₁, ran, done⟩ := map_eq_ok.mp is
      cases done
      obtain ⟨exact', onward⟩ := truncate_ok exact ran
      exact ⟨exact', follows.continues onward (block_change sent), nofun⟩

theorem keepalive_ok {m : Moment} {walEnd : Nat} {reply stop : Bool} (exact : d.sess.Exact)
    (follows : d.Follows sv) (is : d.keepalive p m walEnd reply = .ok (d', stop)) :
    d'.Goes { sv with horizon := max sv.horizon walEnd } stop := by
  have same : d'.sess = d.sess ∧ d'.inStream = d.inStream ∧ (stop = true → d.idle = true) := by
    rw [keepalive] at is
    dsimp only at is
    generalize told :
      (if reply = true then { d with reported := d.reported ++ [m.applied] } else d) = d₁ at is
    have kept : d₁.sess = d.sess ∧ d₁.inStream = d.inStream ∧ d₁.idle = d.idle := by
      subst told
      split <;> exact ⟨rfl, rfl, rfl⟩
    obtain ⟨sess, inStream, idle⟩ := kept
    split at is
    · rename_i caught
      split at is
      · obtain ⟨now, -, done⟩ := map_eq_ok.mp is
        cases done
        exact ⟨sess, inStream, Bool.noConfusion⟩
      · cases is
        exact ⟨sess, inStream, fun _ => idle.symm.trans caught.2⟩
    · cases is
      exact ⟨sess, inStream, Bool.noConfusion⟩
  obtain ⟨sess, inStream, idle⟩ := same
  refine ⟨sess ▸ exact, ⟨inStream.trans follows.block, ?_⟩, ?_⟩
  · intro x inside
    rw [sess]
    exact follows.opened x (inStream.symm.trans inside)
  · intro stopped
    exact follows.block.symm.trans (idle_iff.mp (idle stopped)).2

theorem event_ok {m : Moment} {ev : WalEvent} {stop : Bool} (exact : d.sess.Exact)
    (follows : d.Follows sv) (legal : sv.step? keyCols ev = some sv')
    (is : d.event p m ev = .ok (d', stop)) : d'.Goes sv' stop := by
  cases ev with
  | xlogData msg changeXid => exact message_ok exact follows legal is
  | keepalive walEnd reply =>
      cases legal
      exact keepalive_ok exact follows is

/-- What an event leaves where it fails: a session that is exact, but for a change that went
over the limit. -/
theorem event_error {m : Moment} {ev : WalEvent} (exact : d.sess.Exact) (follows : d.Follows sv)
    (is : d.event p m ev = .error e) : (d.broken p ev).Exact ∨ (d.broken p ev).Refused e := by
  have flag {r : Except Error (Drain β)} (is : r.map (fun d => (d, false)) = .error e) :
      r = .error e := by
    cases r with
    | ok d₁ => cases is
    | error e' =>
        cases is
        rfl
  cases ev with
  | keepalive => exact .inl exact
  | xlogData msg changeXid =>
      cases msg with
      | insert | update | delete => exact rowChange_error exact follows.opened (flag is)
      | truncate relIds => exact truncate_error exact follows.opened (flag is)
      | streamCommit xid at_ => exact .inl (exact.release xid)
      | _ => exact .inl exact

theorem start_ok {sess : DrainSession} {lsn : Nat} {stop : Bool}
    (is : Drain.start p sess lsn = .ok (d, stop)) :
    d.inStream = none ∧ sess.SameBuffers d.sess := by
  rw [start] at is
  dsimp only at is
  split at is
  · cases is
    exact ⟨rfl, rfl, rfl⟩
  · obtain ⟨bodies, -, done⟩ := map_eq_ok.mp is
    cases done
    exact ⟨rfl, rfl, rfl⟩

end Drain

end events

/-! ## Every state of every drain -/

namespace Life

variable {keyCols : String → Option (List String)} {l l' : Life β}

/-- The server has no block open, and may send the events. -/
def Outside (keyCols : String → Option (List String)) (events : List WalEvent) : Prop :=
  ∃ sv : Server, sv.block = none ∧ (sv.run? keyCols events).isSome

/-- The session is exact, and the drain is where the server is. -/
def Sound (keyCols : String → Option (List String)) : Life β → Prop
  | between sess events => sess.Exact ∧ Outside keyCols events
  | reading _ _ d events =>
      d.sess.Exact ∧ ∃ sv, d.Follows sv ∧ (sv.run? keyCols events).isSome
  | read d events => d.sess.Exact ∧ Outside keyCols events
  | failed sess e => sess.Exact ∨ sess.Refused e

theorem exists_step {sv : Server} {ev : WalEvent} {events : List WalEvent}
    (legal : (sv.run? keyCols (ev :: events)).isSome) :
    ∃ sv', sv.step? keyCols ev = some sv' ∧ (sv'.run? keyCols events).isSome := by
  obtain ⟨final, run⟩ := Option.isSome_iff_exists.mp legal
  obtain ⟨sv', first, rest⟩ := Option.bind_eq_some_iff.mp run
  exact ⟨sv', first, Option.isSome_iff_exists.mpr ⟨final, rest⟩⟩

theorem Step.sound (step : Step l l') (sound : l.Sound keyCols) : l'.Sound keyCols := by
  cases step with
  | starts is =>
      obtain ⟨exact, sv, outside, legal⟩ := sound
      obtain ⟨block, streams, bytes⟩ := Drain.start_ok is
      exact ⟨exact.congr streams bytes, sv, .outside block outside, legal⟩
  | carried is =>
      obtain ⟨exact, outside⟩ := sound
      obtain ⟨-, streams, bytes⟩ := Drain.start_ok is
      exact ⟨exact.congr streams bytes, outside⟩
  | startFails is => exact .inl sound.1
  | ends => exact ⟨sound.1, Server.start 0, rfl, rfl⟩
  | stops stopping =>
      obtain ⟨exact, sv, follows, legal⟩ := sound
      have outside : sv.block = none :=
        follows.block.symm.trans (Drain.idle_iff.mp stopping.2).2
      exact ⟨exact, sv, outside, legal⟩
  | faults => exact .inl sound.1
  | event goes calm is =>
      obtain ⟨exact, sv, follows, legal⟩ := sound
      obtain ⟨sv', sent, legal⟩ := exists_step legal
      have onward := Drain.event_ok exact follows sent is
      exact ⟨onward.exact, sv', onward.follows, legal⟩
  | last goes calm is =>
      obtain ⟨exact, sv, follows, legal⟩ := sound
      obtain ⟨sv', sent, legal⟩ := exists_step legal
      have onward := Drain.event_ok exact follows sent is
      exact ⟨onward.exact, sv', onward.stops rfl, legal⟩
  | breaks goes calm is =>
      obtain ⟨exact, sv, follows, legal⟩ := sound
      exact Drain.event_error exact follows is
  | seals is => exact sound
  | sealFails is => exact .inl sound.1

theorem Reaches.sound (reached : Reaches l l') (sound : l.Sound keyCols) : l'.Sound keyCols := by
  induction reached with
  | refl => exact sound
  | tail before step ih => exact step.sound ih

/-- A session counts what it buffers for streamed transactions, in every state of every drain
over a legal stream. Only a change that a drain fails on, for it went over the limit, is charged
and not kept. Nothing released is ever more than the count. -/
theorem stream_bytes_exact {wm : Nat} {expected : String → Option (Nat × String)}
    {events : List WalEvent} (legal : ((Server.start wm).run? keyCols events).isSome)
    (reached : Reaches (between (.expecting expected) events) l) :
    l.sess.Unsaturated ∧ l.sess.held ≤ l.sess.streamBytes ∧
      (l.sess.Exact ∨ ∃ sess e, l = failed sess e ∧ sess.Refused e) := by
  have start : (between (β := β) (.expecting expected) events).Sound keyCols :=
    ⟨.expecting expected, Server.start wm, rfl, legal⟩
  have sound := reached.sound start
  have counts : l.sess.Exact ∨ ∃ sess e, l = failed sess e ∧ sess.Refused e := by
    cases l with
    | between sess events => exact .inl sound.1
    | reading p turn d events => exact .inl sound.1
    | read d events => exact .inl sound.1
    | failed sess e =>
        cases sound with
        | inl exact => exact .inl exact
        | inr refused => exact .inr ⟨sess, e, rfl, refused⟩
  have within : l.sess.held ≤ l.sess.streamBytes := by
    cases counts with
    | inl exact => exact exact.ge
    | inr refused =>
        obtain ⟨sess, e, rfl, op, limit, -, -, counted⟩ := refused
        exact (Nat.le_add_right _ _).trans counted.ge
  exact ⟨DrainSession.unsaturated_of_held_le within, within, counts⟩

/-! ## What the drains of the model come to -/

theorem loop_reaches {p : DrainCall} {turn : Nat} {d d' : Drain β} {events rest : List WalEvent}
    (is : d.loop p turn events = .ok (d', rest)) :
    Reaches (reading p turn d events) (read d' rest) := by
  induction events generalizing turn d with
  | nil =>
      cases is
      exact .single .ends
  | cons ev events ih =>
      rw [Drain.loop] at is
      split at is
      · rename_i stopping
        cases is
        exact .single (.stops stopping)
      · rename_i goes
        split at is
        · cases is
        · rename_i calm
          obtain ⟨⟨d₁, stop⟩, one, is⟩ := bind_eq_ok.mp is
          cases stop with
          | true =>
              cases is
              exact .single (.last goes calm one)
          | false => exact .head (.event goes calm one) (ih is)

/-- A drain that started, where it stops reading. -/
theorem read_reaches {p : DrainCall} {sess : DrainSession} {lsn : Nat} {d d' : Drain β}
    {carriedToStop : Bool} {events rest : List WalEvent}
    (started : Drain.start p sess lsn = .ok (d, carriedToStop))
    (is : d.read p carriedToStop events = .ok (d', rest)) :
    Reaches (between sess events) (read d' rest) := by
  rw [Drain.read] at is
  cases carriedToStop with
  | true =>
      cases is
      exact .single (.carried started)
  | false => exact .head (.starts started) (loop_reaches is)

theorem drain_reaches {p : DrainCall} {sess sess' : DrainSession} {lsn : Nat}
    {events rest : List WalEvent} {o : DrainOutcome W}
    (is : drain β p sess lsn events = .ok (o, sess', rest)) :
    Reaches (β := β) (between sess events) (between sess' rest) := by
  obtain ⟨⟨d, carriedToStop⟩, started, is⟩ := bind_eq_ok.mp is
  obtain ⟨⟨d', rest'⟩, ran, is⟩ := bind_eq_ok.mp is
  obtain ⟨bodies, sealed, is⟩ := bind_eq_ok.mp is
  cases is
  exact (read_reaches started ran).tail (.seals sealed)

theorem loop_fails {p : DrainCall} {turn : Nat} {d : Drain β} {events : List WalEvent} {e : Error}
    (is : d.loop p turn events = .error e) :
    ∃ sess, Reaches (reading p turn d events) (failed sess e) := by
  induction events generalizing turn d with
  | nil => cases is
  | cons ev events ih =>
      rw [Drain.loop] at is
      split at is
      · cases is
      · rename_i goes
        split at is
        · rename_i fault
          cases is
          exact ⟨d.sess, .single (.faults goes fault)⟩
        · rename_i calm
          obtain one | ⟨⟨d₁, stop⟩, one, is⟩ := bind_eq_error.mp is
          · exact ⟨d.broken p ev, .single (.breaks goes calm one)⟩
          · cases stop with
            | true => cases is
            | false =>
                obtain ⟨sess, reached⟩ := ih is
                exact ⟨sess, .head (.event goes calm one) reached⟩

/-- So does the drain that fails. -/
theorem drain_fails {p : DrainCall} {sess : DrainSession} {lsn : Nat} {events : List WalEvent}
    {e : Error} (is : drain β p sess lsn events = .error e) :
    ∃ sess', Reaches (β := β) (between sess events) (failed sess' e) := by
  obtain started | ⟨⟨d, carriedToStop⟩, started, is⟩ := bind_eq_error.mp is
  · exact ⟨_, .single (.startFails started)⟩
  · obtain ran | ⟨⟨d', rest⟩, ran, is⟩ := bind_eq_error.mp is
    · cases carriedToStop with
      | true => cases ran
      | false =>
          obtain ⟨sess', reached⟩ := loop_fails ran
          exact ⟨sess', .head (.starts started) reached⟩
    · obtain sealed | ⟨bodies, sealed, is⟩ := bind_eq_error.mp is
      · exact ⟨d'.sess, (read_reaches started ran).tail (.sealFails sealed)⟩
      · cases is

/-- Successive drains go through the states of a session's life. -/
theorem drains_reaches {calls : List DrainCall} {sess sess' : DrainSession} {lsn : Nat}
    {events rest : List WalEvent} {os : List (DrainOutcome W)}
    (is : drains β sess lsn events calls = .ok (os, sess', rest)) :
    Reaches (β := β) (between sess events) (between sess' rest) := by
  induction calls generalizing sess lsn events os with
  | nil =>
      cases is
      exact .refl
  | cons p calls ih =>
      obtain ⟨⟨o, sess₁, events₁⟩, first, is⟩ := bind_eq_ok.mp is
      obtain ⟨⟨os', sess₂, events₂⟩, more, is⟩ := bind_eq_ok.mp is
      cases is
      exact (drain_reaches first).trans (ih more)

end Life

namespace Sample

/-- A streamed transaction of one row, whose block is still open. -/
def openBlock : List WalEvent :=
  [.xlogData (.streamStart 5) none, .xlogData (.relation relation) (some 5),
    .xlogData (.insert 7 (image 1 10)) (some 5)]

/-- A drain that has room for one byte. -/
def narrowDrain : DrainCall := { drainTo 40 with txLimit := 1 }

end Sample

namespace Life

set_option maxRecDepth 4000 in
/-- A streamed row is held while its block is open, and counted. -/
theorem stream_bytes_exact_openBlock : ∃ l : Life Collapser,
    0 < l.sess.streamBytes ∧ l.sess.Unsaturated ∧ l.sess.held ≤ l.sess.streamBytes ∧
      (l.sess.Exact ∨ ∃ sess e, l = failed sess e ∧ sess.Refused e) := by
  have legal : ((Server.start 10).run? Sample.keyCols Sample.openBlock).isSome := by decide
  have starts : (Drain.start (Sample.drainTo 40) (.expecting fun _ => none) 10 :
    Except Error (Drain Collapser × Bool)) = .ok (_, false) := rfl
  have reads : ∃ l : Life Collapser,
      Reaches (between (.expecting fun _ => none) Sample.openBlock) l ∧
        0 < l.sess.streamBytes := by
    refine ⟨?l, ?run, ?counted⟩
    case run =>
      apply Relation.ReflTransGen.head (.starts starts)
      refine .head (.event (by decide) rfl rfl) ?_
      refine .head (.event (by decide) rfl rfl) ?_
      refine .head (.event (by decide) rfl rfl) ?_
      exact .refl
    case counted => exact Nat.lt_of_sub_eq_succ rfl
  obtain ⟨l, run, counted⟩ := reads
  exact ⟨l, counted, stream_bytes_exact legal run⟩

set_option maxRecDepth 4000 in
/-- A streamed row that a drain has no room for is charged, and not kept. -/
theorem refused_row_charged : ∃ l : Life Collapser,
    ((Server.start 10).run? Sample.keyCols Sample.openBlock).isSome ∧
      Reaches (between (.expecting fun _ => none) Sample.openBlock) l ∧
      l.sess.held = 0 ∧ 0 < l.sess.streamBytes := by
  have legal : ((Server.start 10).run? Sample.keyCols Sample.openBlock).isSome := by decide
  have starts : (Drain.start Sample.narrowDrain (.expecting fun _ => none) 10 :
    Except Error (Drain Collapser × Bool)) = .ok (_, false) := rfl
  refine ⟨?l, legal, ?run, ?kept, ?charged⟩
  case run =>
    apply Relation.ReflTransGen.head (.starts starts)
    refine .head (.event (by decide) rfl rfl) ?_
    refine .head (.event (by decide) rfl rfl) ?_
    refine .head (.breaks (by decide) rfl rfl) ?_
    exact .refl
  case kept => rfl
  case charged => exact Nat.lt_of_sub_eq_succ rfl

end Life

end Apitap
