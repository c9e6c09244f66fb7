import Apitap.Logbased.InsertOnly

/-!
# Insert-only windows land in any order

A row of a window ending at `b` is the source's row at `b`, whoever drained the window
and whatever else it held, so version order agrees with event order whatever lands
when. The watermark only passes windows that are in the table whole, so every change up
to it has a row at or after it.
-/

namespace Apitap.InsertOnly

open Foundation

/-! ## The log -/

section log

variable {l : Layout} {S₀ : SourceTable l} {events : List (Nat × StreamOp)} {a b t : Nat}

theorem upTo_append (sorted : events.Pairwise fun e e' => e.1 ≤ e'.1) (le : a ≤ b) :
    upTo events b = upTo events a ++ between events a b := by
  induction sorted with
  | nil => rfl
  | @cons e events first _ ih =>
      unfold upTo between at ih ⊢
      by_cases early : e.1 ≤ a
      · have here : e.1 ≤ b := Nat.le_trans early le
        have out : ¬ (a < e.1 ∧ e.1 ≤ b) := fun is => Nat.not_lt.mpr early is.1
        rw [List.filter_cons_of_pos (by simpa using here), List.filter_cons_of_pos
          (by simpa using early), List.filter_cons_of_neg (by simpa using out), ih,
          List.cons_append]
      -- from the first late event on there are no early ones
      · have late (e' : Nat × StreamOp) (mem : e' ∈ e :: events) : a < e'.1 := by
          obtain rfl | mem := List.mem_cons.mp mem
          · exact Nat.lt_of_not_le early
          · exact Nat.lt_of_lt_of_le (Nat.lt_of_not_le early) (first e' mem)
        have none : (e :: events).filter (fun e => decide (e.1 ≤ a)) = [] :=
          List.filter_eq_nil_iff.mpr fun e' mem => by simpa using late e' mem
        rw [none, List.nil_append]
        refine List.filter_congr fun e' mem => ?_
        simp [late e' mem]

theorem stateAt_eq {S : SourceTable l} (legal : S₀.run? ((upTo events t).map Prod.snd) = some S) :
    stateAt S₀ events t = S.rows := by
  rw [stateAt, legal]

/-- A legal log is legal up to every position. -/
theorem run?_upTo (sorted : events.Pairwise fun e e' => e.1 ≤ e'.1)
    (legal : (S₀.run? (events.map Prod.snd)).isSome = true) (t : Nat) :
    ∃ S, S₀.run? ((upTo events t).map Prod.snd) = some S := by
  obtain ⟨last, bound⟩ : ∃ last, t ≤ last ∧ ∀ e ∈ events, e.1 ≤ last := by
    refine ⟨max t ((events.map Prod.fst).max?.getD 0), Nat.le_max_left .., fun e mem => ?_⟩
    exact Nat.le_trans (List.le_max?_getD_of_mem (List.mem_map_of_mem mem)) (Nat.le_max_right ..)
  have all : upTo events last = events :=
    List.filter_eq_self.mpr fun e mem => decide_eq_true (bound.2 e mem)
  rw [← all, upTo_append sorted bound.1, List.map_append, SourceTable.run?_append] at legal
  cases run : S₀.run? ((upTo events t).map Prod.snd) with
  | some S => exact ⟨S, rfl⟩
  | none =>
      rw [run] at legal
      nomatch legal

/-- A window's events take the source from the window's start to its end. -/
theorem run?_between (sorted : events.Pairwise fun e e' => e.1 ≤ e'.1)
    (legal : (S₀.run? (events.map Prod.snd)).isSome = true) (le : a ≤ b) :
    ∃ S S' : SourceTable l, S.run? ((between events a b).map Prod.snd) = some S' ∧
      stateAt S₀ events a = S.rows ∧ stateAt S₀ events b = S'.rows := by
  obtain ⟨S, before⟩ := run?_upTo sorted legal a
  obtain ⟨S', after⟩ := run?_upTo sorted legal b
  refine ⟨S, S', ?_, stateAt_eq before, stateAt_eq after⟩
  rw [upTo_append sorted le, List.map_append, SourceTable.run?_append, before] at after
  exact after

/-- Where a key changed, an event was about it. -/
theorem exists_event_of_changed (sorted : events.Pairwise fun e e' => e.1 ≤ e'.1)
    (legal : (S₀.run? (events.map Prod.snd)).isSome = true) {k : Key}
    (changed : stateAt S₀ events (t + 1) k ≠ stateAt S₀ events t k) :
    ∃ e ∈ events, e.1 = t + 1 ∧ (e.2 = .truncate ∨ k ∈ e.2.keys l) := by
  obtain ⟨S, S', ran, before, after⟩ := run?_between sorted legal (Nat.le_succ t)
  by_contra quiet
  refine changed ?_
  rw [after, before]
  refine SourceTable.run?_frame ran fun op mem => ?_
  obtain ⟨e, listed, rfl⟩ := List.mem_map.mp mem
  obtain ⟨there, inside⟩ := List.mem_filter.mp listed
  have inside := of_decide_eq_true inside
  have here : e.1 = t + 1 := by omega
  exact ⟨fun cut => quiet ⟨e, there, here, .inl cut⟩, fun own => quiet ⟨e, there, here, .inr own⟩⟩

end log

/-! ## The invariant -/

section

variable {l : Layout} {name : String} {S₀ : SourceTable l} {events : List (Nat × StreamOp)}
variable {w w' : World} {a : Attempt} {p : InFlight}

/-- The rows cover what changed in the window. -/
def Covers (history : Nat → Key → Option (List Cell)) (id : WindowId) (rows : List VerRow) : Prop :=
  ∀ t, id.start ≤ t → t < id.end → ∀ k, history (t + 1) k ≠ history t k →
    ∃ r ∈ rows, r.key = k ∧ r.ver = id.end

/-- Each window begins where the one before it ended. -/
def Chain (a b : Nat) : List InFlight → Prop
  | [] => a = b
  | p :: ps => p.id.start = a ∧ Chain p.id.end b ps

theorem Chain.concat {a b c : Nat} {ps : List InFlight} (chain : Chain a b ps)
    (start : p.id.start = b) (last : p.id.end = c) : Chain a c (ps ++ [p]) := by
  induction ps generalizing a with
  | nil => exact ⟨start.trans chain.symm, last⟩
  | cons q ps ih => exact ⟨chain.1, ih chain.2⟩

theorem Chain.settle {a b : Nat} {before after : List InFlight}
    (chain : Chain a b (before ++ p :: after)) (settled : Bool) :
    Chain a b (before ++ { p with settled := settled } :: after) := by
  induction before generalizing a with
  | nil => exact chain
  | cons q before ih => exact ⟨chain.1, ih chain.2⟩

/-- A window in flight: it covers what changed, unless the member is past it already, and
a settled one is in the table whole. -/
structure Flies (S₀ : SourceTable l) (events : List (Nat × StreamOp)) (w : World) (floor : Nat)
    (p : InFlight) : Prop where
  covers : floor < p.id.end → Covers (stateAt S₀ events) p.id p.rows
  landed : p.settled = true → p.rows ⊆ w.table

structure Good (S₀ : SourceTable l) (events : List (Nat × StreamOp)) (w : World) (a : Attempt) :
    Prop where
  floor : Covered (stateAt S₀ events) w.table a.floor
  closed : Covered (stateAt S₀ events) w.table a.closed
  chain : Chain a.closed a.drained a.inflight
  flies : ∀ p ∈ a.inflight, Flies S₀ events w a.floor p

structure Inv (S₀ : SourceTable l) (events : List (Nat × StreamOp)) (w : World) : Prop where
  faithful : Faithful (stateAt S₀ events) w.table
  sent : Faithful (stateAt S₀ events) w.sent
  loaded : ∀ k, S₀.rows k ≠ none → ∃ r ∈ w.table, r.key = k
  stored : Covered (stateAt S₀ events) w.table w.stored
  attempts : ∀ i a, w.attempts i = some a → Good S₀ events w a

theorem Good.subset (good : Good S₀ events w a) (subset : w.table ⊆ w'.table) :
    Good S₀ events w' a :=
  ⟨good.floor.subset subset, good.closed.subset subset, good.chain, fun p mem =>
    ⟨(good.flies p mem).covers, fun settled =>
      List.Subset.trans ((good.flies p mem).landed settled) subset⟩⟩

/-- One attempt changes, over the same table. -/
theorem Inv.set (inv : Inv S₀ events w) {i : Nat} (table : w'.table = w.table)
    (attempts : w'.attempts = Function.update w.attempts i (some a))
    (good : Good S₀ events w a) (sent : Faithful (stateAt S₀ events) w'.sent)
    (stored : Covered (stateAt S₀ events) w.table w'.stored) : Inv S₀ events w' := by
  refine ⟨table ▸ inv.faithful, sent, table ▸ inv.loaded, table ▸ stored, fun j b there => ?_⟩
  have same : w.table ⊆ w'.table := table ▸ List.Subset.refl _
  rw [attempts] at there
  by_cases here : j = i
  · subst here
    rw [Function.update_self] at there
    obtain rfl := Option.some.inj there
    exact good.subset same
  · rw [Function.update_of_ne here] at there
    exact (inv.attempts j b there).subset same

/-- What a member writes for a window is the source's rows at its end, and covers it. -/
theorem memberRows_spec (sorted : events.Pairwise fun e e' => e.1 ≤ e'.1)
    (legal : (S₀.run? (events.map Prod.snd)).isSome = true) {x : Option (TableWindow Collapsed)}
    (id : WindowId) (le : id.start ≤ id.end)
    (window : windowOf l name (between events id.start id.end) = .ok x)
    (safe : parallelSafe x.toList = true) (floor : Nat) :
    Faithful (stateAt S₀ events) (memberRows floor x id) ∧
      (floor < id.end → Covers (stateAt S₀ events) id (memberRows floor x id)) := by
  unfold memberRows
  split
  · rename_i past
    exact ⟨nofun, fun late => absurd past (Nat.not_le.mpr late)⟩
  · obtain ⟨S, S', ran, -, after⟩ := run?_between sorted legal le
    obtain ⟨rows, covers⟩ := applyUnit_spec ran window safe id
    refine ⟨fun r mem => ?_, fun _ t first last k changed => ?_⟩
    · obtain ⟨ver, value⟩ := rows r mem
      rw [value, ver, after]
    · obtain ⟨e, there, pos, about⟩ := exists_event_of_changed sorted legal changed
      have inside : e ∈ between events id.start id.end :=
        List.mem_filter.mpr ⟨there, by simp only [decide_eq_true_eq]; omega⟩
      obtain ⟨uncut, touched⟩ := covers e.2 (List.mem_map_of_mem inside)
      obtain ⟨r, mem, key⟩ := touched k (about.resolve_left uncut)
      exact ⟨r, mem, key, (rows r mem).1⟩

theorem Inv.step (sorted : events.Pairwise fun e e' => e.1 ≤ e'.1)
    (legal : (S₀.run? (events.map Prod.snd)).isSome = true) (inv : Inv S₀ events w)
    (step : Step l name events w w') : Inv S₀ events w' := by
  cases step with
  | begins new start =>
      exact inv.set rfl rfl ⟨inv.stored, inv.stored.mono start, rfl, nofun⟩ inv.sent inv.stored
  | drains there later window safe =>
      have good := inv.attempts _ _ there
      obtain ⟨faithful, covers⟩ := memberRows_spec sorted legal ⟨_, _⟩ later window safe _
      refine inv.set rfl rfl ⟨good.floor, good.closed, good.chain.concat rfl rfl, fun p mem => ?_⟩
        (List.forall_mem_append.mpr ⟨faithful, inv.sent⟩) inv.stored
      obtain mem | mem := List.mem_append.mp mem
      · exact good.flies p mem
      · obtain rfl := List.mem_singleton.mp mem
        exact ⟨covers, nofun⟩
  | @lands r sent =>
      have subset := List.subset_cons_self r w.table
      refine ⟨inv.faithful.cons (inv.sent _ sent), inv.sent, fun k held => ?_,
        inv.stored.subset subset, fun i a there => (inv.attempts i a there).subset subset⟩
      obtain ⟨r, mem, key⟩ := inv.loaded k held
      exact ⟨r, .tail _ mem, key⟩
  | @settles i a before after p there split landed =>
      have good := inv.attempts _ _ there
      refine inv.set rfl rfl ⟨good.floor, good.closed, (split ▸ good.chain).settle true,
        fun q mem => ?_⟩ inv.sent inv.stored
      have mine := good.flies p (split ▸ List.mem_append_right _ (.head _))
      obtain mem | mem := List.mem_append.mp mem
      · exact good.flies q (split ▸ List.mem_append_left _ mem)
      · obtain rfl | mem := List.mem_cons.mp mem
        · exact ⟨mine.covers, fun _ => landed⟩
        · exact good.flies q (split ▸ List.mem_append_right _ (.tail _ mem))
  | @closes i a p rest there first settled =>
      have good := inv.attempts _ _ there
      have flies := good.flies p (first ▸ .head _)
      have chain : Chain a.closed a.drained (p :: rest) := first ▸ good.chain
      have covered : Covered (stateAt S₀ events) w.table p.id.end := by
        obtain past | late := Nat.lt_or_ge a.floor p.id.end
        · refine good.closed.extend fun t after before k changed => ?_
          obtain ⟨r, mem, own⟩ := flies.covers past t (chain.1 ▸ after) before k changed
          exact ⟨r, flies.landed settled mem, own⟩
        · exact good.floor.mono late
      refine inv.set rfl rfl ⟨good.floor, covered, chain.2, fun q mem =>
        good.flies q (first ▸ .tail _ mem)⟩ inv.sent ?_
      dsimp only [World.setAttempt]
      split
      · exact inv.stored
      · exact covered

/-- Before its first event the log leaves the source as it was loaded. -/
theorem stateAt_zero (start : w.Start S₀ events) : stateAt S₀ events 0 = S₀.rows := by
  have none : upTo events 0 = [] := List.filter_eq_nil_iff.mpr fun e mem => by
    have := start.later e mem
    simp only [decide_eq_true_eq]
    omega
  refine stateAt_eq ?_
  rw [none]
  rfl

theorem start_inv (sorted : events.Pairwise fun e e' => e.1 ≤ e'.1)
    (legal : (S₀.run? (events.map Prod.snd)).isSome = true) (start : w.Start S₀ events) :
    Inv S₀ events w := by
  refine ⟨fun r mem => ?_, start.sent ▸ nofun, start.loaded, fun t before k changed => ?_,
    fun i a there => nomatch (start.attempts i).symm.trans there⟩
  · obtain ⟨ver, value⟩ := start.rows r mem
    rw [value, ver, stateAt_zero start]
  · obtain ⟨e, there, pos, -⟩ := exists_event_of_changed sorted legal changed
    have := start.later e there
    omega

theorem reaches_inv (sorted : events.Pairwise fun e e' => e.1 ≤ e'.1)
    (legal : (S₀.run? (events.map Prod.snd)).isSome = true) (start : w.Start S₀ events)
    (run : Reaches l name events w w') : Inv S₀ events w' := by
  induction run with
  | refl => exact start_inv sorted legal start
  | tail _ step ih => exact ih.step sorted legal step

/-- Insert-only windows converge in any order: whatever runs of the drain there were, at
whatever commits they cut their windows, and whatever of those windows landed, when and
how often, no two rows of one key and version differ; and once the stored watermark is
at or past every window that wrote a row, the table shows the source's at it. -/
theorem insert_only_converges (sorted : events.Pairwise fun e e' => e.1 ≤ e'.1)
    (legal : (S₀.run? (events.map Prod.snd)).isSome = true) (start : w.Start S₀ events)
    (run : Reaches l name events w w') :
    (∀ r ∈ w'.table, ∀ r' ∈ w'.table, r.key = r'.key → r.ver = r'.ver → r.value = r'.value) ∧
      ((∀ r ∈ w'.table, r.ver ≤ w'.stored) → visible w'.table = stateAt S₀ events w'.stored) := by
  have inv := reaches_inv sorted legal start run
  refine ⟨fun r there r' there' => inv.faithful.tie there there', fun past => ?_⟩
  funext k
  refine newest_of_covered inv.faithful inv.stored past (fun k absent => ?_) k
  rw [stateAt_zero start]
  by_contra held
  obtain ⟨r, there, own⟩ := inv.loaded k held
  exact absent r there own

end

/-! ### Two windows the wrong way round -/

open Sample

/-- Row `1` is inserted, then rewritten. -/
def rewritten : List (Nat × StreamOp) :=
  [(100, .insert (image 1 10)), (200, .update none (image 1 11) true)]

def blank : World := ⟨[], [], 0, fun _ => none⟩

/-- The second window lands and settles before the first one does. -/
theorem insert_only_converges_swapped : ∃ w, Reaches layout "t" rewritten blank w ∧
    w.stored = 200 ∧ visible w.table = stateAt (SourceTable.empty layout) rewritten 200 := by
  let first : VerRow := ⟨key 1, 100, some (row 1 10)⟩
  let second : VerRow := ⟨key 1, 200, some (row 1 11)⟩
  let inFlight : Attempt :=
    ⟨0, 200, 0, [⟨⟨0, 100⟩, [first], false⟩] ++ ⟨⟨100, 200⟩, [second], false⟩ :: []⟩
  let overtaken : Attempt :=
    ⟨0, 200, 0, [] ++ ⟨⟨0, 100⟩, [first], false⟩ :: [⟨⟨100, 200⟩, [second], true⟩]⟩
  have run : Reaches layout "t" rewritten blank _ :=
    .head (.begins (i := 0) (s := 0) rfl le_rfl) <|
    .head (.drains (i := 0) (b := 100) rfl (by decide) rfl rfl) <|
    .head (.drains (i := 0) (b := 200) rfl (by decide) rfl rfl) <|
    .head (.lands (r := second) (by decide)) <|
    .head (.settles (i := 0) (a := inFlight) rfl rfl (by decide)) <|
    .head (.lands (r := first) (by decide)) <|
    .head (.settles (i := 0) (a := overtaken) rfl rfl (by decide)) <|
    .head (.closes (i := 0) rfl rfl rfl) <|
    .head (.closes (i := 0) rfl rfl rfl) <|
    .refl
  have start : blank.Start (SourceTable.empty layout) rewritten :=
    ⟨nofun, fun _ held => absurd rfl held, rfl, fun _ => rfl, by decide⟩
  have shown := (insert_only_converges (by decide) (by decide) start run).2 (by decide)
  exact ⟨_, run, rfl, shown⟩

end Apitap.InsertOnly
