import Apitap.Logbased.ChangelogLane

/-!
# A changelog replays exactly once

Between attempts the log is the older writer's rows, then every event up to the
watermark, then at the watermark's own stamp a prefix of the events past it. The
last part is what the newest marker vouches for: its attempt numbered above the
older writer's rows, so what the facts count from that base is the prefix and
nothing else. Whatever the next attempt's end, the plan makes the prefix its window.
-/

namespace Apitap

variable {ε : Type}

/-! ## Consecutive rows -/

/-- Events appended at one stamp, numbered from a base. -/
def numbered (stamp : Nat) : Nat → List ε → List (LogRow ε)
  | _, [] => []
  | base, e :: es => ⟨stamp, base, .event e⟩ :: numbered stamp (base + 1) es

theorem numbered_append (stamp base : Nat) (xs ys : List ε) :
    numbered stamp base (xs ++ ys) =
      numbered stamp base xs ++ numbered stamp (base + xs.length) ys := by
  induction xs generalizing base with
  | nil => rfl
  | cons x xs ih =>
      rw [List.cons_append, numbered, numbered, ih, List.cons_append, List.length_cons,
        Nat.add_right_comm, Nat.add_assoc]

theorem numbered_map_entry (stamp base : Nat) (xs : List ε) :
    (numbered stamp base xs).map LogRow.entry = xs.map Logged.event := by
  induction xs generalizing base with
  | nil => rfl
  | cons x xs ih => rw [numbered, List.map_cons, ih, List.map_cons]

theorem numbered_length (stamp base : Nat) (xs : List ε) :
    (numbered stamp base xs).length = xs.length := by
  rw [← List.length_map (f := LogRow.entry), numbered_map_entry, List.length_map]

theorem numbered_take (stamp base k : Nat) (xs : List ε) :
    (numbered stamp base xs).take k = numbered stamp base (xs.take k) := by
  induction xs generalizing base k with
  | nil => rw [List.take_nil, numbered, List.take_nil]
  | cons x xs ih =>
      cases k with
      | zero => rfl
      | succ k => rw [numbered, List.take_succ_cons, ih, List.take_succ_cons, numbered]

theorem mem_numbered {stamp base : Nat} {xs : List ε} {r : LogRow ε}
    (mem : r ∈ numbered stamp base xs) :
    r.lsn = stamp ∧ base ≤ r.seq ∧ r.seq < base + xs.length ∧ r.isEvent = true := by
  induction xs generalizing base with
  | nil => nomatch mem
  | cons x xs ih =>
      rw [List.length_cons]
      obtain rfl | mem := List.mem_cons.mp mem
      · exact ⟨rfl, Nat.le_refl base, by show base < base + (xs.length + 1); omega, rfl⟩
      · obtain ⟨lsn, low, high, isEvent⟩ := ih mem
        exact ⟨lsn, by omega, by omega, isEvent⟩

theorem numbered_before (stamp base : Nat) (xs : List ε) :
    (numbered stamp base xs).Pairwise LogRow.Before := by
  induction xs generalizing base with
  | nil => exact .nil
  | cons x xs ih =>
      refine .cons (fun r mem => ?_) (ih (base + 1))
      obtain ⟨lsn, low, -, -⟩ := mem_numbered mem
      exact .inr ⟨lsn.symm, low⟩

private theorem zipIdx_map_numbered (stamp base k : Nat) (xs : List ε) :
    (xs.zipIdx k).map (fun e => (⟨stamp, base + e.2, .event e.1⟩ : LogRow ε)) =
      numbered stamp (base + k) xs := by
  induction xs generalizing k with
  | nil => rfl
  | cons x xs ih => rw [List.zipIdx_cons, List.map_cons, ih, numbered, Nat.add_assoc]

theorem changelogBody_eq (plan : ReplayPlan) (events : List ε) (all : plan.events = events.length)
    (skip : plan.skip ≤ events.length) :
    changelogBody plan events =
      numbered plan.stamp (plan.seqBase + plan.skip) (events.drop plan.skip) := by
  have whole : (events.zipIdx.map fun e => (⟨plan.stamp, plan.seqOf e.2, .event e.1⟩ : LogRow ε)) =
      numbered plan.stamp plan.seqBase events :=
        zipIdx_map_numbered plan.stamp plan.seqBase 0 events
  have split := numbered_append plan.stamp plan.seqBase (events.take plan.skip)
    (events.drop plan.skip)
  have long : (numbered plan.stamp plan.seqBase (events.take plan.skip)).length = plan.skip := by
    rw [numbered_length, List.length_take, Nat.min_eq_left skip]
  rw [List.take_append_drop, List.length_take, Nat.min_eq_left skip] at split
  rw [changelogBody, all, List.take_of_length_le (by rw [List.length_zipIdx]), List.map_drop,
    whole, split, List.drop_left' long]

/-! ## What the facts count -/

theorem seqsAt_append (xs ys : List (LogRow ε)) (stamp : Nat) :
    seqsAt (xs ++ ys) stamp = seqsAt xs stamp ++ seqsAt ys stamp := by
  rw [seqsAt, List.filter_append, List.map_append]
  rfl

theorem mem_seqsAt {log : List (LogRow ε)} {stamp n : Nat} :
    n ∈ seqsAt log stamp ↔ ∃ r ∈ log, r.isEvent = true ∧ r.lsn = stamp ∧ r.seq = n := by
  simp [seqsAt, and_assoc]

theorem seqsAt_eq_nil {log : List (LogRow ε)} {stamp : Nat}
    (none : ∀ r ∈ log, r.isEvent = true → r.lsn ≠ stamp) : seqsAt log stamp = [] := by
  refine List.eq_nil_iff_forall_not_mem.mpr fun n mem => ?_
  obtain ⟨r, mem, isEvent, lsn, -⟩ := mem_seqsAt.mp mem
  exact none r mem isEvent lsn

theorem seqsAt_numbered (stamp base : Nat) (xs : List ε) :
    seqsAt (numbered stamp base xs) stamp = List.range' base xs.length := by
  induction xs generalizing base with
  | nil => rfl
  | cons x xs ih =>
      rw [List.length_cons, List.range'_succ, ← ih]
      simp [seqsAt, numbered, LogRow.isEvent]

private theorem max?_range' (base n : Nat) :
    (List.range' base n).max? = if n = 0 then none else some (base + (n - 1)) := by
  split
  · subst n
    rfl
  · refine List.max?_eq_some_iff.mpr ⟨List.mem_range'_1.mpr (by omega), fun m mem => ?_⟩
    have := List.mem_range'_1.mp mem
    omega

/-- The base a window numbers from: above the older writer's rows at its stamp. -/
def baseAt (older : List (LogRow ε)) (stamp : Nat) : Nat :=
  match (seqsAt older stamp).max? with
  | none => 0
  | some m => m + 1

theorem lt_baseAt {older : List (LogRow ε)} {stamp n : Nat} (mem : n ∈ seqsAt older stamp) :
    n < baseAt older stamp := by
  rw [baseAt]
  cases top : (seqsAt older stamp).max? with
  | none => rw [List.max?_eq_none_iff.mp top] at mem; nomatch mem
  | some m => exact Nat.lt_succ_of_le ((List.max?_eq_some_iff.mp top).2 n mem)

theorem seqsAt_eq_nil_of_baseAt {older : List (LogRow ε)} {stamp : Nat}
    (zero : baseAt older stamp = 0) : seqsAt older stamp = [] :=
  List.eq_nil_iff_forall_not_mem.mpr fun n mem => by
    have := lt_baseAt mem
    omega

/-! ## The source's events -/

theorem eventsIn_self (history : List (Nat × ε)) (s : Nat) : eventsIn history s s = [] := by
  rw [eventsIn, List.map_eq_nil_iff, List.filter_eq_nil_iff]
  intro e _
  simp only [decide_eq_true_eq]
  omega

/-- A window is a prefix of what follows its start. -/
theorem eventsIn_append_eventsAfter {history : List (Nat × ε)}
    (sorted : history.Pairwise (·.1 ≤ ·.1)) {s e : Nat} (le : s ≤ e) :
    eventsIn history s e ++ eventsAfter history e = eventsAfter history s := by
  rw [eventsIn, eventsAfter, eventsAfter, ← List.map_append]
  congr 1
  induction sorted with
  | nil => rfl
  | @cons x xs first _ ih =>
      have take {p : Nat × ε → Prop} [DecidablePred p] (here : p x) :
          (x :: xs).filter (fun y => decide (p y)) = x :: xs.filter (fun y => decide (p y)) :=
        List.filter_cons_of_pos (decide_eq_true here)
      have skip {p : Nat × ε → Prop} [DecidablePred p] (gone : ¬ p x) :
          (x :: xs).filter (fun y => decide (p y)) = xs.filter (fun y => decide (p y)) :=
        List.filter_cons_of_neg (by rw [decide_eq_false gone]; exact Bool.false_ne_true)
      by_cases late : e < x.1
      · -- nothing after `x` is in the window either
        have rest : xs.filter (fun y => decide (s < y.1 ∧ y.1 ≤ e)) = [] := by
          refine List.filter_eq_nil_iff.mpr fun y mem => ?_
          have := first y mem
          simp only [decide_eq_true_eq]
          omega
        rw [rest, List.nil_append] at ih
        rw [skip (by omega), take late, take (by omega), rest, ih, List.nil_append]
      · by_cases after : s < x.1
        · rw [take (by omega), skip late, take after, List.cons_append, ih]
        · rw [skip (by omega), skip late, skip after, ih]

theorem eventsIn_append {history : List (Nat × ε)} (sorted : history.Pairwise (·.1 ≤ ·.1))
    {s m e : Nat} (lo : s ≤ m) (hi : m ≤ e) :
    eventsIn history s m ++ eventsIn history m e = eventsIn history s e := by
  have whole := eventsIn_append_eventsAfter sorted (Nat.le_trans lo hi)
  have parts := eventsIn_append_eventsAfter sorted lo
  rw [← eventsIn_append_eventsAfter sorted hi, ← List.append_assoc, ← whole] at parts
  exact List.append_cancel_right parts

/-! ## The newest marker -/

private theorem mem_of_foldl_newer {markers : List MarkerRow} {first : Option MarkerRow}
    {m : MarkerRow} (newest : markers.foldl newer first = some m) :
    first = some m ∨ m ∈ markers := by
  induction markers generalizing first with
  | nil => exact .inl newest
  | cons x xs ih =>
      obtain here | mem := ih newest
      · cases first with
        | none =>
            obtain rfl : x = m := Option.some.inj here
            exact .inr List.mem_cons_self
        | some best =>
            simp only [newer] at here
            split at here
            · obtain rfl : x = m := Option.some.inj here
              exact .inr List.mem_cons_self
            · exact .inl here
      · exact .inr (List.mem_cons_of_mem x mem)

theorem newestMarker_mem {markers : List MarkerRow} {m : MarkerRow}
    (newest : newestMarker markers = some m) : m ∈ markers :=
  (mem_of_foldl_newer newest).resolve_left nofun

theorem newestMarker_concat {markers : List MarkerRow} {m : MarkerRow}
    (newest : ∀ m' ∈ markers, m'.start ≤ m.start) : newestMarker (markers ++ [m]) = some m := by
  rw [newestMarker, List.foldl_append, ← newestMarker, List.foldl_cons, List.foldl_nil]
  cases old : newestMarker markers with
  | none => rfl
  | some m' => exact if_pos (newest m' (newestMarker_mem old))

/-! ## What the rule plans -/

/-- What every attempt comes down to: `landed` events of this window are at the stamp,
the window carries `events`. -/
def resumePlan (base landed events : Nat) (id : WindowId) : ReplayPlan :=
  ⟨id.start, base, min landed events, events, if events < landed then some
   (base + events) else none,
    decide (landed < events), id.end⟩

theorem Replay.intactPrefix_range' {base n : Nat} (fits : n = 0 ∨ base + n ≤ u32Max) :
    Replay.intactPrefix base ⟨n, (List.range' base n).max?⟩ = true := by
  rw [Replay.intactPrefix, max?_range', Bool.or_eq_true, decide_eq_true_eq]
  by_cases zero : n = 0
  · exact .inl zero
  · have last : (u32Of (n - 1)).bind (checkedAdd base) = some (base + (n - 1)) :=
      u32Of_bind_checkedAdd.mpr ⟨by omega, rfl⟩
    exact .inr (by simp [last, zero])

/-- A stamp that holds consecutive rows from the base is resumed where they end, or
cut where a shorter window ends. -/
theorem Replay.resume_range' {table : String} {base n events : Nat} {f : StampFacts}
    {id : WindowId} (counted : f.fromBase = ⟨n, (List.range' base n).max?⟩)
    (fits : n = 0 ∨ base + n ≤ u32Max) :
    Replay.resume table base f id events =
      .ok (base, min n events, if events < n then some (base + events) else none,
        decide (n < events)) := by
  rw [Replay.resume, counted, Replay.intactPrefix_range' fits, Bool.not_true,
    if_neg Bool.false_ne_true]
  by_cases short : n ≤ events
  · simp only [if_pos short, Nat.min_eq_left short, if_neg (Nat.not_lt.mpr short)]
  · have cut : (u32Of events).bind (checkedAdd base) = some (base + events) :=
      u32Of_bind_checkedAdd.mpr ⟨by omega, rfl⟩
    have longer : events < n := Nat.lt_of_not_le short
    simp only [if_neg short, cut, Nat.min_eq_right (Nat.le_of_lt longer), if_pos longer,
      decide_eq_false (Nat.not_lt.mpr (Nat.le_of_lt longer))]

theorem replayPlan_eq_ok {table : String} {p : Option Pending} {f : Option StampFacts}
    {id : WindowId} {events base landed : Nat} {plan : ReplayPlan}
    (decided : Replay.rule table p f id events =
      .ok (base, min landed events, if events < landed then some (base + events) else none,
        decide (landed < events))) :
    replayPlan table p f id events = .ok plan ↔
      base + events ≤ u32Max ∧ plan = resumePlan base landed events id := by
  rw [replayPlan, decided]
  simp only [Except.bind]
  cases top : (u32Of events).bind (checkedAdd base) with
  | none =>
      refine iff_of_false nofun fun ⟨fits, _⟩ => ?_
      rw [u32Of_bind_checkedAdd.mpr ⟨fits, rfl⟩] at top
      nomatch top
  | some _ =>
      have fits := (u32Of_bind_checkedAdd.mp top).1
      simp [resumePlan, fits, eq_comm]

/-- Away from the newest marker's start only the highest seq at the stamp matters. -/
theorem replayPlan_congr {table : String} {p : Option Pending} {f f' : Option StampFacts}
    {id : WindowId} {events : Nat} (elsewhere : ∀ q, p = some q → q.start ≠ id.start)
    (same : f.bind (·.all.maxSeq) = f'.bind (·.all.maxSeq)) :
    replayPlan table p f id events = replayPlan table p f' id events := by
  have above : Replay.numberAbove table f id events = Replay.numberAbove table f' id events := by
    rw [Replay.numberAbove, Replay.numberAbove, same]
  rw [replayPlan, replayPlan]
  congr 1
  cases p with
  | none => exact above
  | some q => simp only [Replay.rule, if_neg (elsewhere q rfl), above]

/-! ## What holds between attempts -/

namespace Lane

/-- What a lane's log is: the older writer's rows, the settled ones, and at the
watermark's own stamp what attempts landed past it. -/
structure Sound (older : List (LogRow ε)) (history : List (Nat × ε)) (w₀ : Nat)
    (settled : List (LogRow ε)) (landed : List ε) (l : Lane ε) : Prop where
  log : l.log = older ++ (settled ++ numbered l.watermark (baseAt older l.watermark) landed)
  started : w₀ ≤ l.watermark
  events : settled.map LogRow.entry = (eventsIn history w₀ l.watermark).map .event
  ordered : settled.Pairwise LogRow.Before
  below : ∀ r ∈ settled, r.lsn < l.watermark
  above : ∀ r ∈ settled, baseAt older r.lsn ≤ r.seq
  ahead : landed <+: eventsAfter history l.watermark
  fits : landed = [] ∨ baseAt older l.watermark + landed.length ≤ u32Max
  markers : ∀ m ∈ l.markers, m.start ≤ l.watermark
  marked : landed ≠ [] → ∃ m, newestMarker l.markers = some m ∧ m.start = l.watermark
  based : ∀ m, newestMarker l.markers = some m → m.start = l.watermark →
    m.pending.queryBase = baseAt older l.watermark

/-- What the process remembers of a lane is what the destination holds. -/
def Remembers (l : Lane ε) (s : Seen) : Prop :=
  s.pending = l.pending ∧
    ∀ r ∈ l.log, r.isEvent = true → l.watermark ≤ r.lsn → ∃ c, s.ceiling = some c ∧ r.lsn ≤ c

/-- Where a lane may begin: its markers belong to windows before the watermark, or
0.56.0 was interrupted at the watermark's own window, numbering from 0 at a stamp no
other version wrote to. -/
inductive Begins (older : List (LogRow ε)) (history : List (Nat × ε)) (w₀ : Nat) :
    Lane ε → Prop
  | fresh {markers : List MarkerRow} (past : ∀ m ∈ markers, m.start < w₀) :
      Begins older history w₀ ⟨older, markers, w₀, none⟩
  | interrupted {markers : List MarkerRow} {m : MarkerRow} {landed : List ε}
      (past : ∀ m ∈ markers, m.start ≤ w₀) (newest : newestMarker markers = some m)
      (start : m.start = w₀) (legacy : m.events = 0) (alone : baseAt older w₀ = 0)
      (ahead : landed <+: eventsAfter history w₀) (fits : landed.length ≤ u32Max) :
      Begins older history w₀ ⟨older ++ numbered w₀ 0 landed, markers, w₀, none⟩

section

variable {older settled : List (LogRow ε)} {history : List (Nat × ε)} {w₀ : Nat} {landed : List ε}
  {l : Lane ε}

theorem Begins.sound (begins : Begins older history w₀ l) :
    ∃ landed, Sound older history w₀ [] landed l := by
  cases begins with
  | @fresh markers past =>
      refine ⟨[], ?_, Nat.le_refl w₀, ?_, .nil, nofun, nofun, List.nil_prefix, .inl rfl,
        fun m mem => Nat.le_of_lt (past m mem), absurd rfl, fun m newest start => ?_⟩
      · simp [numbered]
      · simp [eventsIn_self]
      · have := past m (newestMarker_mem newest)
        simp only at start
        omega
  | @interrupted markers m landed past newest start legacy alone ahead fits =>
      refine ⟨landed, ?_, Nat.le_refl w₀, ?_, .nil, nofun, nofun, ahead, .inr ?_, past,
        fun _ => ⟨m, newest, start⟩, fun m' newest' _ => ?_⟩
      · simp [alone]
      · simp [eventsIn_self]
      · simpa [alone] using fits
      · obtain rfl : m = m' := Option.some.inj (newest.symm.trans newest')
        simp [alone, MarkerRow.pending, legacy, Pending.queryBase]

theorem Sound.forget (sound : Sound older history w₀ settled landed l) (memo : Memo) :
    Sound older history w₀ settled landed { l with memo := memo } := by
  obtain ⟨h₁, h₂, h₃, h₄, h₅, h₆, h₇, h₈, h₉, h₁₀, h₁₁⟩ := sound
  exact ⟨h₁, h₂, h₃, h₄, h₅, h₆, h₇, h₈, h₉, h₁₀, h₁₁⟩

theorem Sound.seqsAt (sound : Sound older history w₀ settled landed l) :
    seqsAt l.log l.watermark =
      Apitap.seqsAt older l.watermark ++
        List.range' (baseAt older l.watermark) landed.length := by
  have elsewhere : Apitap.seqsAt settled l.watermark = [] :=
    seqsAt_eq_nil fun r mem _ => Nat.ne_of_lt (sound.below r mem)
  rw [sound.log, seqsAt_append, seqsAt_append, elsewhere, List.nil_append, seqsAt_numbered]

/-- Counted from the base, the stamp holds what attempts landed and nothing else. -/
theorem Sound.factsAt_base (sound : Sound older history w₀ settled landed l) :
    (factsAt l.log l.watermark (baseAt older l.watermark)).fromBase =
      ⟨landed.length, (List.range' (baseAt older l.watermark) landed.length).max?⟩ := by
  have below : (Apitap.seqsAt older l.watermark).filter
      (fun n => decide (baseAt older l.watermark ≤ n)) = [] := by
    refine List.filter_eq_nil_iff.mpr fun n mem => ?_
    have := lt_baseAt mem
    simp only [decide_eq_true_eq]
    omega
  have up : (List.range' (baseAt older l.watermark) landed.length).filter
      (fun n => decide (baseAt older l.watermark ≤ n)) =
      List.range' (baseAt older l.watermark) landed.length := by
    refine List.filter_eq_self.mpr fun n mem => decide_eq_true ?_
    exact (List.mem_range'_1.mp mem).1
  simp only [factsAt, sound.seqsAt, List.filter_append, below, up, List.nil_append,
    List.length_range']

/-- The newest marker at the watermark tells the base its attempt numbered from. -/
theorem Sound.markerBase (sound : Sound older history w₀ settled landed l) {table : String}
    {id : WindowId} {m : MarkerRow} (newest : newestMarker l.markers = some m)
    (start : m.start = l.watermark) :
    Replay.markerBase table m.pending
      (factsAt l.log l.watermark (baseAt older l.watermark)) id =
      .ok (baseAt older l.watermark) := by
  have base := sound.based m newest start
  by_cases legacy : m.events = 0
  · -- 0.56.0 numbered from 0, so no other version's row is at the stamp
    have zero : baseAt older l.watermark = 0 := by
      rw [← base, MarkerRow.pending, if_pos legacy]
      rfl
    have distinct : (Apitap.seqsAt l.log l.watermark).dedup = Apitap.seqsAt l.log l.watermark := by
      rw [sound.seqsAt, seqsAt_eq_nil_of_baseAt zero, List.nil_append]
      exact List.dedup_eq_self.mpr List.nodup_range'
    have one : (factsAt l.log l.watermark (baseAt older l.watermark)).all.count =
        (factsAt l.log l.watermark (baseAt older l.watermark)).distinctSeq := by
      rw [factsAt, distinct]
    rw [MarkerRow.pending, if_pos legacy]
    exact (if_neg (not_not.mpr one)).trans (congrArg Except.ok zero.symm)
  · rw [MarkerRow.pending, if_neg legacy] at base ⊢
    exact congrArg Except.ok base

/-- The rule over the true facts plans to make the stamp this window, unless the
window would number past the seq's range. -/
theorem Sound.truePlan_eq_ok (sound : Sound older history w₀ settled landed l) {table : String}
    {e events : Nat} {plan : ReplayPlan} :
    l.truePlan table ⟨l.watermark, e⟩ events = .ok plan ↔
      baseAt older l.watermark + events ≤ u32Max ∧
        plan = resumePlan (baseAt older l.watermark) landed.length events ⟨l.watermark, e⟩ := by
  by_cases here : ∃ m, newestMarker l.markers = some m ∧ m.start = l.watermark
  · obtain ⟨m, newest, start⟩ := here
    have fits : landed.length = 0 ∨ baseAt older l.watermark + landed.length ≤ u32Max :=
      sound.fits.imp List.length_eq_zero_iff.mpr id
    have pending : l.pending = some m.pending := by rw [Lane.pending, newest, Option.map_some]
    have same : m.pending.start = l.watermark := start
    refine replayPlan_eq_ok ?_
    simp only [pending, Option.elim_some, sound.based m newest start, Replay.rule, same,
      Nat.lt_irrefl, if_false, if_true, sound.markerBase newest start, Except.bind]
    exact Replay.resume_range' sound.factsAt_base fits
  · -- no marker names this start, so nothing of this window landed yet
    have none : landed = [] := by
      by_contra some
      exact here (sound.marked some)
    have elsewhere : ∀ q, l.pending = some q → q.start < l.watermark := by
      intro q pending
      obtain ⟨m, newest, rfl⟩ := Option.map_eq_some_iff.mp pending
      refine Nat.lt_of_le_of_ne (sound.markers m (newestMarker_mem newest)) fun start => ?_
      exact here ⟨m, newest, start⟩
    have top (base : Nat) : (factsAt l.log l.watermark base).all.maxSeq =
        (Apitap.seqsAt older l.watermark).max? := by
      simp only [factsAt, sound.seqsAt, none, List.length_nil, List.range'_zero, List.append_nil]
    have rule (f : StampFacts) : Replay.rule table l.pending (some f) ⟨l.watermark, e⟩ events =
        Replay.numberAbove table (some f) ⟨l.watermark, e⟩ events := by
      cases pending : l.pending with
      | none => rfl
      | some q =>
          have past := elsewhere q pending
          simp only [Replay.rule, if_neg (Nat.lt_asymm past), if_neg (Nat.ne_of_lt past)]
    subst none
    cases highest : (Apitap.seqsAt older l.watermark).max? with
    | none =>
        have base : baseAt older l.watermark = 0 := by rw [baseAt, highest]
        refine replayPlan_eq_ok ?_
        rw [rule, Replay.numberAbove, Option.bind_some, top, highest, base]
        simp
    | some m =>
        have base : baseAt older l.watermark = m + 1 := by rw [baseAt, highest]
        cases next : checkedAdd m 1 with
        | none =>
            refine iff_of_false ?_ fun ⟨fits, _⟩ => ?_
            · rw [truePlan, replayPlan, rule, Replay.numberAbove, Option.bind_some, top, highest]
              simp only [next, Except.bind]
              nofun
            · rw [checkedAdd_eq_some.mpr ⟨by omega, rfl⟩] at next
              nomatch next
        | some n =>
            refine replayPlan_eq_ok ?_
            rw [rule, Replay.numberAbove, Option.bind_some, top, highest, base]
            simp [next, ← (checkedAdd_eq_some.mp next).2]

theorem le_ceilingOf {log : List (LogRow ε)} {r : LogRow ε} (mem : r ∈ log)
    (isEvent : r.isEvent = true) : ∃ c, ceilingOf log = some c ∧ r.lsn ≤ c := by
  have stamped : r.lsn ∈ (log.filter LogRow.isEvent).map LogRow.lsn :=
    List.mem_map_of_mem (List.mem_filter.mpr ⟨mem, isEvent⟩)
  cases top : ceilingOf log with
  | none => rw [List.max?_eq_none_iff.mp top] at stamped; nomatch stamped
  | some c => exact ⟨c, rfl, (List.max?_eq_some_iff.mp top).2 _ stamped⟩

theorem consult_remembers (remembers : ∀ s, l.memo = some s → l.Remembers s) :
    ∃ s, l.consult = some s ∧ l.Remembers s := by
  cases memo : l.memo with
  | none => exact ⟨⟨l.pending, ceilingOf l.log⟩, by rw [consult, memo, Memo.probed], rfl,
      fun r mem isEvent _ => le_ceilingOf mem isEvent⟩
  | some s => exact ⟨s, by rw [consult, memo], remembers s memo⟩

/-- What the memo asks for decides as the true facts do. -/
theorem planOf_eq_truePlan (remembers : ∀ s, l.memo = some s → l.Remembers s) {table : String}
    {e events : Nat} :
    l.planOf table ⟨l.watermark, e⟩ events = l.truePlan table ⟨l.watermark, e⟩ events := by
  obtain ⟨⟨_, ceiling⟩, consult, rfl, bounded⟩ := consult_remembers remembers
  rw [planOf, asked, consult]
  simp only [Memo.plan, truePlan]
  by_cases here : ∃ p, l.pending = some p ∧ p.start = l.watermark
  · obtain ⟨p, pending, start⟩ := here
    simp only [Memo.ask, pending, start, if_true, Option.elim_some]
  · have elsewhere : ∀ p, l.pending = some p → p.start ≠ l.watermark :=
      fun p pending start => here ⟨p, pending, start⟩
    refine replayPlan_congr elsewhere ?_
    have ask : Memo.ask (some ⟨l.pending, ceiling⟩) ⟨l.watermark, e⟩ =
        if ceiling.any (l.watermark ≤ ·) then .facts 0 else .nothing := by
      cases pending : l.pending with
      | none => rfl
      | some p => rw [Memo.ask, if_neg (elsewhere p pending)]
    rw [ask]
    by_cases reach : ceiling.any (l.watermark ≤ ·) = true
    · rw [if_pos reach]
      rfl
    · -- no row is at or past the watermark, so the stamp is empty
      have empty : seqsAt l.log l.watermark = [] := by
        refine seqsAt_eq_nil fun r mem isEvent lsn => reach ?_
        obtain ⟨c, rfl, le⟩ := bounded r mem isEvent (Nat.le_of_eq lsn.symm)
        rw [Option.any_some, decide_eq_true_eq]
        omega
      rw [if_neg reach]
      simp [factsAt, empty]

/-! ## What an attempt writes -/

@[simp] theorem writes_nil : l.writes [] = l := rfl

@[simp] theorem writes_cons (w : LogWrite ε) (ws : List (LogWrite ε)) :
    l.writes (w :: ws) = (l.write w).writes ws := rfl

theorem writes_rows (rows : List (LogRow ε)) :
    l.writes (rows.map .row) = { l with log := l.log ++ rows } := by
  induction rows generalizing l with
  | nil => rw [List.map_nil, writes_nil, List.append_nil]
  | cons r rows ih => rw [List.map_cons, writes_cons, ih, Lane.write, List.append_assoc]; rfl

theorem changelogWrites_short {base landed : Nat} {id : WindowId} {events : List ε}
    (short : landed < events.length) :
    changelogWrites (resumePlan base landed events.length id) events =
      .mark ⟨id.start, base, id.end, events.length⟩ ::
        (numbered id.start (base + landed) (events.drop landed)).map .row := by
  have skip : (resumePlan base landed events.length id).skip = landed :=
    Nat.min_eq_left (Nat.le_of_lt short)
  have body := changelogBody_eq (resumePlan base landed events.length id) events rfl
    (by rw [skip]; exact Nat.le_of_lt short)
  rw [skip] at body
  have steps : changelogSteps (resumePlan base landed events.length id) =
      [.mark ⟨id.start, base, id.end, events.length⟩, .append] := by
    simp [changelogSteps, resumePlan, ReplayPlan.marker, short, Nat.le_of_lt short]
  rw [changelogWrites, steps]
  simp only [List.flatMap_cons, List.flatMap_nil, ChStep.writes, List.append_nil, body,
    List.singleton_append]
  rfl

theorem changelogWrites_level {base : Nat} {id : WindowId} {events : List ε} :
    changelogWrites (resumePlan base events.length events.length id) events = [] := by
  simp [changelogWrites, changelogSteps, resumePlan, ReplayPlan.marker]

theorem changelogWrites_long {base landed : Nat} {id : WindowId} {events : List ε}
    (long : events.length < landed) :
    changelogWrites (resumePlan base landed events.length id) events =
      [.trim id.start (base + events.length)] := by
  have all : ¬ landed < events.length := Nat.lt_asymm long
  simp [changelogWrites, changelogSteps, resumePlan, ReplayPlan.marker, long, all,
    Nat.le_of_lt long, ChStep.writes]

/-- An attempt that marks its start, then appends where the landed events end. -/
theorem Sound.append (sound : Sound older history w₀ settled landed l) {m : MarkerRow}
    (start : m.start = l.watermark) (base : m.seqBase = baseAt older l.watermark)
    (counted : m.events ≠ 0) (xs : List ε) (ahead : landed ++ xs <+: eventsAfter
      history l.watermark)
    (fits : baseAt older l.watermark + (landed ++ xs).length ≤ u32Max) :
    Sound older history w₀ settled (landed ++ xs)
      { l with
        log := l.log ++ numbered l.watermark (baseAt older l.watermark + landed.length) xs
        markers := l.markers ++ [m] } := by
  have newest : newestMarker (l.markers ++ [m]) = some m :=
    newestMarker_concat fun m' mem => start ▸ sound.markers m' mem
  refine ⟨?_, sound.started, sound.events, sound.ordered, sound.below, sound.above, ahead,
    .inr fits, ?_, fun _ => ⟨m, newest, start⟩, fun m' newest' _ => ?_⟩
  · show l.log ++ _ = _
    rw [sound.log, numbered_append]
    simp only [List.append_assoc]
  · intro m' mem
    obtain mem | rfl := List.mem_append.mp mem |>.imp_right List.mem_singleton.mp
    · exact sound.markers m' mem
    · exact Nat.le_of_eq start
  · obtain rfl : m = m' := Option.some.inj (newest.symm.trans newest')
    rw [MarkerRow.pending, if_neg counted]
    exact base

private theorem numbered_filter_lt (stamp base n : Nat) (xs : List ε) :
    (numbered stamp base xs).filter (fun r => decide ¬ (r.isEvent ∧ r.lsn = stamp ∧
      base + n ≤ r.seq)) = numbered stamp base (xs.take n) := by
  induction xs generalizing base n with
  | nil => rw [List.take_nil]; rfl
  | cons x xs ih =>
      cases n with
      | zero =>
          rw [List.take_zero]
          refine List.filter_eq_nil_iff.mpr fun r mem => ?_
          obtain ⟨lsn, low, -, isEvent⟩ := mem_numbered mem
          simp [lsn, low, isEvent]
      | succ n =>
          have next := ih (base + 1) n
          rw [Nat.add_right_comm, Nat.add_assoc] at next
          have kept : ¬ base + (n + 1) ≤ base := by omega
          rw [List.take_succ_cons, numbered, numbered, List.filter_cons_of_pos, next]
          simp [kept]

/-- The trim cuts the landed events at the window's end and touches nothing else. -/
theorem Sound.cut (sound : Sound older history w₀ settled landed l) (n : Nat) :
    Sound older history w₀ settled (landed.take n)
      (l.write (.trim l.watermark (baseAt older l.watermark + n))) := by
  have older_kept : older.filter (fun r => decide ¬ (r.isEvent ∧ r.lsn = l.watermark ∧
      baseAt older l.watermark + n ≤ r.seq)) = older := by
    refine List.filter_eq_self.mpr fun r mem => decide_eq_true fun ⟨isEvent, lsn, high⟩ => ?_
    have := lt_baseAt (mem_seqsAt.mpr ⟨r, mem, isEvent, lsn, rfl⟩)
    omega
  have settled_kept : settled.filter (fun r => decide ¬ (r.isEvent ∧ r.lsn = l.watermark ∧
      baseAt older l.watermark + n ≤ r.seq)) = settled :=
    List.filter_eq_self.mpr fun r mem => decide_eq_true fun ⟨_, lsn, _⟩ =>
      Nat.ne_of_lt (sound.below r mem) lsn
  refine ⟨?_, sound.started, sound.events, sound.ordered, sound.below, sound.above,
    (List.take_prefix n landed).trans sound.ahead, ?_, sound.markers, fun some => ?_, sound.based⟩
  · simp only [Lane.write]
    rw [sound.log, List.filter_append, List.filter_append, older_kept, settled_kept,
      numbered_filter_lt]
  · refine sound.fits.imp (fun none => ?_) fun fits => ?_
    · rw [none, List.take_nil]
    · rw [List.length_take]
      show baseAt older l.watermark + _ ≤ _
      omega
  · refine sound.marked fun none => some ?_
    rw [none, List.take_nil]

/-- The window of an attempt and the landed events start the same. -/
private theorem eq_take_of_ahead {xs ys all : List ε} (hx : xs <+: all) (hy : ys <+: all)
    (le : xs.length ≤ ys.length) : xs = ys.take xs.length :=
  List.prefix_iff_eq_take.mp (List.prefix_of_prefix_length_le hx hy le)

/-- Wherever an attempt dies, the landed events are a prefix of what follows the
watermark, and once every write landed they are its window. -/
theorem Sound.attempt (sound : Sound older history w₀ settled landed l) (id : WindowId)
    {events : List ε} (start : id.start = l.watermark)
    (ahead : events <+: eventsAfter history l.watermark)
    (fits : baseAt older l.watermark + events.length ≤ u32Max) (k : Nat) :
    ∃ landed', Sound older history w₀ settled landed'
        (l.writes ((changelogWrites
          (resumePlan (baseAt older l.watermark) landed.length events.length id) events).take k)) ∧
      ((changelogWrites (resumePlan (baseAt older l.watermark) landed.length events.length id)
        events).length ≤ k → landed' = events) := by
  obtain short | level | long := Nat.lt_trichotomy landed.length events.length
  · have same := eq_take_of_ahead sound.ahead ahead (Nat.le_of_lt short)
    rw [changelogWrites_short short, start]
    cases k with
    | zero => exact ⟨landed, sound, nofun⟩
    | succ k =>
        have whole : landed ++ (events.drop landed.length).take k =
            events.take (landed.length + k) := by
          rw [List.take_add, ← same]
        have appended := sound.append (m := ⟨l.watermark, baseAt older l.watermark, id.end,
          events.length⟩) rfl rfl (Nat.ne_of_gt (Nat.lt_of_le_of_lt (Nat.zero_le _) short))
          ((events.drop landed.length).take k)
          (by rw [whole]; exact (List.take_prefix _ _).trans ahead)
          (by rw [whole, List.length_take]; omega)
        refine ⟨landed ++ (events.drop landed.length).take k, ?_, fun all => ?_⟩
        · rw [List.take_succ_cons, ← List.map_take, numbered_take, writes_cons, writes_rows]
          exact appended
        · rw [List.length_cons, List.length_map, numbered_length, List.length_drop] at all
          rw [whole, List.take_of_length_le (by omega)]
  · have same := eq_take_of_ahead sound.ahead ahead (Nat.le_of_eq level)
    rw [level, List.take_length] at same
    subst same
    rw [changelogWrites_level, List.take_nil]
    exact ⟨landed, sound, fun _ => rfl⟩
  · have same := eq_take_of_ahead ahead sound.ahead (Nat.le_of_lt long)
    rw [changelogWrites_long long, start]
    cases k with
    | zero => exact ⟨landed, sound, nofun⟩
    | succ k =>
        rw [List.take_succ_cons, List.take_nil, writes_cons, writes_nil]
        exact ⟨_, sound.cut events.length, fun _ => same.symm⟩

theorem writes_watermark (ws : List (LogWrite ε)) : (l.writes ws).watermark = l.watermark := by
  induction ws generalizing l with
  | nil => rfl
  | cons w ws ih =>
      rw [writes_cons, ih]
      cases w <;> rfl

/-- Once the watermark moves past the window, its events are settled. -/
theorem Sound.settle (sorted : history.Pairwise (·.1 ≤ ·.1)) {e : Nat} (later : l.watermark < e)
    (sound : Sound older history w₀ settled (eventsIn history l.watermark e) l) (memo : Memo) :
    Sound older history w₀ (settled ++ numbered l.watermark (baseAt older l.watermark)
      (eventsIn history l.watermark e)) [] { l with watermark := e, memo := memo } := by
  refine ⟨?_, ?_, ?_, ?_, ?_, ?_, List.nil_prefix, .inl rfl, ?_, absurd rfl, ?_⟩
  · show l.log = _
    rw [sound.log, numbered, List.append_nil]
  · exact Nat.le_trans sound.started (Nat.le_of_lt later)
  · rw [List.map_append, sound.events, numbered_map_entry, ← List.map_append,
      eventsIn_append sorted sound.started (Nat.le_of_lt later)]
  · refine List.pairwise_append.mpr ⟨sound.ordered, numbered_before _ _ _, fun r mem r' mem' => ?_⟩
    exact .inl ((mem_numbered mem').1 ▸ sound.below r mem)
  · intro r mem
    obtain mem | mem := List.mem_append.mp mem
    · exact Nat.lt_trans (sound.below r mem) later
    · exact (mem_numbered mem).1 ▸ later
  · intro r mem
    obtain mem | mem := List.mem_append.mp mem
    · exact sound.above r mem
    · obtain ⟨lsn, low, -, -⟩ := mem_numbered mem
      exact lsn ▸ low
  · exact fun m mem => Nat.le_trans (sound.markers m mem) (Nat.le_of_lt later)
  · intro m newest start
    have past := sound.markers m (newestMarker_mem newest)
    have here : m.start = e := start
    omega

/-- The newest marker once an attempt ran to its end. -/
theorem Sound.pending_writes (sound : Sound older history w₀ settled landed l) (id : WindowId)
    (events : List ε) (start : id.start = l.watermark) :
    (l.writes (changelogWrites
      (resumePlan (baseAt older l.watermark) landed.length events.length id) events)).pending =
      if landed.length < events.length then
        some ⟨l.watermark, some (baseAt older l.watermark)⟩ else l.pending := by
  obtain short | level | long := Nat.lt_trichotomy landed.length events.length
  · have counted : events.length ≠ 0 := by omega
    rw [if_pos short, changelogWrites_short short, start, writes_cons, writes_rows]
    simp only [Lane.pending, Lane.write]
    rw [newestMarker_concat (m := ⟨l.watermark, _, _, _⟩) sound.markers, Option.map_some,
      MarkerRow.pending, if_neg counted]
  · rw [if_neg (Nat.not_lt.mpr (Nat.le_of_eq level.symm)), level, changelogWrites_level, writes_nil]
  · rw [if_neg (Nat.lt_asymm long), changelogWrites_long long, writes_cons, writes_nil]
    rfl

/-- An attempt that commits leaves its window settled, and the process remembers it. -/
theorem Sound.commits (sorted : history.Pairwise (·.1 ≤ ·.1)) {table : String} {l' : Lane ε}
    (sound : Sound older history w₀ settled landed l)
    (remembers : ∀ s, l.memo = some s → l.Remembers s) (commits : l.Commits table history l') :
    ∃ settled', Sound older history w₀ settled' [] l' ∧ ∀ s, l'.memo = some s → l'.Remembers s := by
  obtain ⟨e, plan, later, planned, rfl⟩ := commits
  rw [planOf_eq_truePlan remembers, sound.truePlan_eq_ok] at planned
  obtain ⟨fits, rfl⟩ := planned
  have ahead : eventsIn history l.watermark e <+: eventsAfter history l.watermark :=
    ⟨_, eventsIn_append_eventsAfter sorted (Nat.le_of_lt later)⟩
  obtain ⟨landed', whole, all⟩ := sound.attempt ⟨l.watermark, e⟩ rfl ahead fits
    (changelogWrites _ (eventsIn history l.watermark e)).length
  obtain rfl := all (Nat.le_refl _)
  have pending := sound.pending_writes ⟨l.watermark, e⟩ (eventsIn history l.watermark e) rfl
  obtain ⟨s, consult, same, bounded⟩ := consult_remembers remembers
  rw [List.take_length] at whole
  generalize ws : changelogWrites _ (eventsIn history l.watermark e) = writes at whole pending ⊢
  have still := l.writes_watermark writes
  rw [← still] at whole later
  have settled' := whole.settle sorted later
    (l.consult.committed (resumePlan (baseAt older l.watermark) landed.length
      (eventsIn history l.watermark e).length ⟨l.watermark, e⟩))
  refine ⟨_, settled', fun s' memo => ?_⟩
  have seen : s'.pending = (l.writes writes).pending ∧ s'.ceiling = s.ceiling := by
    rw [pending]
    simp only [consult, Memo.committed, resumePlan, Option.map_some] at memo
    by_cases short : landed.length < (eventsIn history l.watermark e).length
    · rw [if_pos (decide_eq_true short)] at memo
      exact Option.some.inj memo ▸ ⟨(if_pos short).symm, rfl⟩
    · rw [if_neg (by rw [decide_eq_false short]; exact Bool.false_ne_true)] at memo
      exact Option.some.inj memo ▸ ⟨same.trans (if_neg short).symm, rfl⟩
  refine ⟨seen.1, fun r mem isEvent high => ?_⟩
  -- a row past the new watermark is the older writer's, and it was there to be seen
  have was : r ∈ older := by
    rw [settled'.log, numbered, List.append_nil] at mem
    refine (List.mem_append.mp mem).resolve_right fun mem => ?_
    exact Nat.not_lt.mpr high (settled'.below r mem)
  rw [seen.2]
  refine bounded r (sound.log ▸ List.mem_append_left _ was) isEvent ?_
  exact Nat.le_of_lt (Nat.lt_of_lt_of_le (still ▸ later) high)

/-- The invariant of a run: the lane is sound, and what the process remembers holds. -/
def Steady (older : List (LogRow ε)) (history : List (Nat × ε)) (w₀ : Nat) (l : Lane ε) : Prop :=
  (∃ settled landed, Sound older history w₀ settled landed l) ∧
    ∀ s, l.memo = some s → l.Remembers s

theorem Steady.step (sorted : history.Pairwise (·.1 ≤ ·.1)) {table : String} {l' : Lane ε}
    (steady : Steady older history w₀ l) (step : Step table history l l') :
    Steady older history w₀ l' := by
  obtain ⟨⟨settled, landed, sound⟩, remembers⟩ := steady
  cases step with
  | restart => exact ⟨⟨settled, landed, sound.forget none⟩, nofun⟩
  | refused later planned => exact ⟨⟨settled, landed, sound.forget _⟩, nofun⟩
  | @died e plan k later planned =>
      rw [planOf_eq_truePlan remembers, sound.truePlan_eq_ok] at planned
      obtain ⟨fits, rfl⟩ := planned
      have ahead : eventsIn history l.watermark e <+: eventsAfter history l.watermark :=
        ⟨_, eventsIn_append_eventsAfter sorted (Nat.le_of_lt later)⟩
      obtain ⟨landed', part, -⟩ := sound.attempt ⟨l.watermark, e⟩ rfl ahead fits k
      exact ⟨⟨settled, landed', part.forget _⟩, nofun⟩
  | committed commits =>
      obtain ⟨settled', sound', remembers'⟩ := sound.commits sorted remembers commits
      exact ⟨⟨settled', [], sound'⟩, remembers'⟩

theorem Steady.run (sorted : history.Pairwise (·.1 ≤ ·.1)) {table : String} {l₀ : Lane ε}
    (begins : Begins older history w₀ l₀)
    (run : Relation.ReflTransGen (Step table history) l₀ l) : Steady older history w₀ l := by
  induction run with
  | refl =>
      obtain ⟨landed, sound⟩ := begins.sound
      refine ⟨⟨[], landed, sound⟩, ?_⟩
      cases begins <;> nofun
  | tail _ step ih => exact ih.step sorted step

/-- A lane's rows, after the older writer's, in the order readers take them. -/
def Ordered (older : List (LogRow ε)) (l : Lane ε) (rows : List (LogRow ε)) : Prop :=
  l.log = older ++ rows ∧ rows.Pairwise LogRow.Before ∧ ∀ r ∈ rows, baseAt older r.lsn ≤ r.seq

theorem Sound.ordered_rows (sound : Sound older history w₀ settled landed l) :
    Ordered older l
      (settled ++ numbered l.watermark (baseAt older l.watermark) landed) := by
  refine ⟨sound.log, ?_, fun r mem => ?_⟩
  · refine List.pairwise_append.mpr ⟨sound.ordered, numbered_before _ _ _, fun r mem r' mem' => ?_⟩
    exact .inl ((mem_numbered mem').1 ▸ sound.below r mem)
  · obtain mem | mem := List.mem_append.mp mem
    · exact sound.above r mem
    · obtain ⟨lsn, low, -, -⟩ := mem_numbered mem
      exact lsn ▸ low

/-- Changelog replay is exactly-once. In every state a run of attempts reaches, the
older writer's rows are untouched and the lane's rows hold each position once; the
rule refuses a window only when it would number past the seq's range; and a commit
leaves exactly the source's events up to its watermark. -/
theorem replay_exactly_once {table : String} {l₀ : Lane ε} (sorted : history.Pairwise (·.1 ≤ ·.1))
    (begins : Begins older history w₀ l₀)
    (run : Relation.ReflTransGen (Step table history) l₀ l) :
    (∃ rows, Ordered older l rows) ∧
    (∀ e, l.watermark < e →
      ((∃ plan, l.truePlan table ⟨l.watermark, e⟩ (eventsIn history l.watermark e).length =
          .ok plan) ↔
        baseAt older l.watermark + (eventsIn history l.watermark e).length ≤ u32Max)) ∧
    ∀ l', l.Commits table history l' → ∃ rows, Ordered older l' rows ∧
      rows.map LogRow.entry = (eventsIn history w₀ l'.watermark).map .event := by
  have steady := Steady.run sorted begins run
  obtain ⟨⟨settled, landed, sound⟩, remembers⟩ := steady
  refine ⟨⟨_, sound.ordered_rows⟩, fun e later => ?_, fun l' commits => ?_⟩
  · refine ⟨fun ⟨plan, planned⟩ => (sound.truePlan_eq_ok.mp planned).1, fun fits => ?_⟩
    exact ⟨_, sound.truePlan_eq_ok.mpr ⟨fits, rfl⟩⟩
  · obtain ⟨settled', sound', -⟩ := sound.commits sorted remembers commits
    refine ⟨_, sound'.ordered_rows, ?_⟩
    rw [numbered, List.append_nil, sound'.events]

end

/-! ## One table's log -/

namespace Sample

/-- A row an older release stamped with the position this lane starts from. -/
def foreign : List (LogRow Nat) := [⟨10, 0, .event 7⟩]

def commits : List (Nat × Nat) := [(20, 1), (30, 2)]

/-- A lane that starts over the older row. -/
def lane : Lane Nat := ⟨foreign, [], 10, none⟩

/-- An attempt at both events that died before its watermark. -/
def halted : Lane Nat :=
  ⟨[⟨10, 0, .event 7⟩, ⟨10, 1, .event 1⟩, ⟨10, 2, .event 2⟩], [⟨10, 1, 30, 2⟩], 10, none⟩

end Sample

/-- The attempt above lands both events; whatever end the next one drains to, what
it commits is the events up to there, once each. -/
theorem replay_exactly_once_halted :
    Relation.ReflTransGen (Step "public.t" Sample.commits) Sample.lane Sample.halted ∧
    ∀ l', Sample.halted.Commits "public.t" Sample.commits l' →
      ∃ rows, Ordered Sample.foreign l' rows ∧
        rows.map LogRow.entry = (eventsIn Sample.commits 10 l'.watermark).map .event := by
  have sorted : Sample.commits.Pairwise (·.1 ≤ ·.1) := by decide
  have begins : Begins Sample.foreign Sample.commits 10 Sample.lane := .fresh nofun
  have later : Sample.lane.watermark < 30 := by decide
  have planned : Sample.lane.planOf "public.t" ⟨Sample.lane.watermark, 30⟩
      (eventsIn Sample.commits Sample.lane.watermark 30).length =
      .ok ⟨10, 1, 0, 2, none, true, 30⟩ := rfl
  have died : Step "public.t" Sample.commits Sample.lane Sample.halted := .died 3 later planned
  have run := Relation.ReflTransGen.single died
  exact ⟨run, (replay_exactly_once sorted begins run).2.2⟩

/-- The rule does refuse: an older row at the highest seq leaves no number for the
window's events, and nothing tells the rows of a 0.56.0 attempt from an older
version's at the same stamp. -/
theorem replay_refuses :
    (Begins [⟨10, u32Max, .event 7⟩] Sample.commits 10
        (⟨[⟨10, u32Max, .event 7⟩], [], 10, none⟩ : Lane Nat) ∧
      (⟨[⟨10, u32Max, .event 7⟩], [], 10, none⟩ : Lane Nat).truePlan "public.t" ⟨10, 30⟩
          (eventsIn Sample.commits 10 30).length =
        .error (Replay.overflow "public.t" ⟨10, 30⟩ 2 u32Max)) ∧
    (⟨[⟨10, 0, .event 7⟩, ⟨10, 0, .event 1⟩], [⟨10, 0, 0, 0⟩], 10, none⟩ : Lane Nat).truePlan
        "public.t" ⟨10, 30⟩ (eventsIn Sample.commits 10 30).length =
      .error (Replay.mixed "public.t" ⟨10, 30⟩) :=
  ⟨⟨.fresh nofun, rfl⟩, rfl⟩

end Lane

end Apitap
