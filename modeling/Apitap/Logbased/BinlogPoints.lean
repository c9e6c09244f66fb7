import Apitap.Logbased.BinlogRun

/-!
# Points of a binlog

A legal log moves its server forward only, and every position in it is passed once. A
window may end at a point where no statement is under way and nothing the open group
changed is tracked; the server committed the same groups on every way there, so a dump
that begins at such a point sends exactly the log's events from there on.
-/

namespace Apitap

namespace Mysource

namespace Master

section land

variable (m : Master) (ops : List (String × StreamOp)) (stop : Nat)

@[simp] theorem land_file : (m.land ops stop).file = m.file := by
  unfold land
  split <;> rfl

@[simp] theorem land_pos : (m.land ops stop).pos = m.pos := by
  unfold land
  split <;> rfl

@[simp] theorem land_bound : (m.land ops stop).bound = m.bound := by
  unfold land
  split <;> rfl

@[simp] theorem land_open : (m.land ops stop).open = m.open := by
  unfold land
  split <;> rfl

@[simp] theorem land_ddls : (m.land ops stop).ddls = m.ddls := by
  unfold land
  split <;> rfl

/-- The group a commit marker commits, if it changed anything tracked. -/
def group : List Group := if ops = [] then [] else [⟨ops, m.file, stop, m.ddls⟩]

@[simp] theorem land_committed : (m.land ops stop).committed = m.committed ++ m.group ops stop := by
  unfold land group
  split
  · rw [List.append_nil]
  · rfl

theorem mem_group {g : Group} (mem : g ∈ m.group ops stop) :
    ops ≠ [] ∧ g = ⟨ops, m.file, stop, m.ddls⟩ := by
  unfold group at mem
  split at mem
  · cases mem
  · rename_i some_ops
    exact ⟨some_ops, List.mem_singleton.mp mem⟩

end land

variable {m m' : Master}

/-- The place a server is at, and one that is not before it. -/
def Before (m m' : Master) : Prop := m.file < m'.file ∨ m.file = m'.file ∧ m.pos ≤ m'.pos

theorem Before.refl (m : Master) : m.Before m := .inr ⟨rfl, le_rfl⟩

theorem Before.trans {m'' : Master} (first : m.Before m') (second : m'.Before m'') :
    m.Before m'' := by
  unfold Before at *
  omega

/-- What is committed once the log ends at a position: the groups from before, and those a
marker at this position commits. -/
def Commits (m m' : Master) : Prop :=
  ∃ more, m'.committed = m.committed ++ more ∧
    ∀ g ∈ more, g.ops ≠ [] ∧ g.file = m.file ∧ g.stop = m.pos

theorem Commits.same (committed : m'.committed = m.committed) : m.Commits m' := by
  refine ⟨[], ?_, fun g mem => ?_⟩
  · rw [committed, List.append_nil]
  · cases mem

theorem Commits.land (ops : List (String × StreamOp))
    (committed : m'.committed = m.committed ++ m.group ops m.pos) : m.Commits m' := by
  refine ⟨m.group ops m.pos, committed, fun g mem => ?_⟩
  obtain ⟨some_ops, rfl⟩ := m.mem_group ops m.pos mem
  exact ⟨some_ops, rfl, rfl⟩

/-- An entry the log goes on with: behind the place so far, and the place after it. -/
structure Passes (m : Master) (e : Entry) (m' : Master) : Prop where
  file : m.file = e.file
  stop : m.pos < e.stop ∨ m.pos = e.stop ∧ e.rotates = true
  place : (e.rotates = true ∧ m'.pos = 4 ∧ m.file < m'.file ∧ m'.file < 2 ^ 31) ∨
    e.rotates = false ∧ m'.file = m.file ∧ m'.pos = e.stop
  commits : ∃ more, m'.committed = m.committed ++ more ∧
    ∀ g ∈ more, g.ops ≠ [] ∧ g.file = m.file ∧ g.stop = e.stop ∧ e.rotates = false

theorem Passes.before {e : Entry} (passes : m.Passes e m') : m.Before m' := by
  obtain ⟨-, -, further, -⟩ | ⟨-, file, pos⟩ := passes.place
  · exact .inl further
  · refine .inr ⟨file.symm, ?_⟩
    obtain lt | ⟨is, -⟩ := passes.stop
    · rw [pos]
      exact Nat.le_of_lt lt
    · rw [pos]
      exact Nat.le_of_eq is

/-- A dump that begins where the server is sends the log's next entry. -/
theorem Passes.past {e : Entry} (passes : m.Passes e m') : e.past m.file m.pos = true := by
  have stop := passes.stop
  simp only [Entry.past, passes.file, lt_self_iff_false, decide_false, decide_true, Bool.false_or,
    Bool.true_and, Bool.or_eq_true, Bool.and_eq_true, decide_eq_true_eq]
  exact stop

/-- A dump that begins behind an entry does not send it. -/
theorem Passes.not_past {e : Entry} (passes : m.Passes e m') : e.past m'.file m'.pos = false := by
  have file := passes.file
  obtain ⟨-, -, further, -⟩ | ⟨stays, same, pos⟩ := passes.place
  · simp only [Entry.past, Bool.or_eq_false_iff, Bool.and_eq_false_iff, decide_eq_false_iff_not]
    exact ⟨by omega, .inl (by omega)⟩
  · simp only [Entry.past, stays, Bool.and_false, Bool.or_false, Bool.or_eq_false_iff,
      Bool.and_eq_false_iff, decide_eq_false_iff_not]
    exact ⟨by omega, .inr (by omega)⟩

theorem Passes.past_false {e e' : Entry} (passes : m.Passes e m')
    (behind : e'.past m.file m.pos = false) : e'.past m'.file m'.pos = false := by
  simp only [Entry.past, Bool.or_eq_false_iff, Bool.and_eq_false_iff,
    decide_eq_false_iff_not] at behind ⊢
  have stop := passes.stop
  obtain ⟨-, -, further, -⟩ | ⟨stays, same, pos⟩ := passes.place
  · exact ⟨by omega, .inl (by omega)⟩
  · simp only [stays, Bool.false_eq_true, and_false, or_false] at stop
    refine ⟨by omega, behind.2.imp (fun differ => by omega) fun behind =>
      ⟨by omega, .inl (by omega)⟩⟩

/-- What a legal stretch of the log does. -/
structure Spans (m m' : Master) : Prop where
  before : m.Before m'
  file : m.file < 2 ^ 31 → m'.file < 2 ^ 31
  pos : 4 ≤ m.pos → 4 ≤ m'.pos
  behind : ∀ e : Entry, e.past m.file m.pos = false → e.past m'.file m'.pos = false
  commits : ∃ more, m'.committed = m.committed ++ more ∧ ∀ g ∈ more, g.ops ≠ [] ∧
    (m.file < g.file ∨ m.file = g.file ∧ m.pos < g.stop)

theorem Spans.refl (m : Master) : m.Spans m where
  before := .refl m
  file low := low
  pos far := far
  behind _ behind := behind
  commits := by
    refine ⟨[], (List.append_nil _).symm, fun g mem => ?_⟩
    cases mem

theorem Spans.trans {m'' : Master} (first : m.Spans m') (second : m'.Spans m'') : m.Spans m'' where
  before := first.before.trans second.before
  file low := second.file (first.file low)
  pos far := second.pos (first.pos far)
  behind e behind := second.behind e (first.behind e behind)
  commits := by
    obtain ⟨more, is, at_⟩ := first.commits
    obtain ⟨more', is', at_'⟩ := second.commits
    refine ⟨more ++ more', by rw [is', is, List.append_assoc], fun g mem => ?_⟩
    cases List.mem_append.mp mem with
    | inl mem => exact at_ g mem
    | inr mem =>
        have before := first.before
        obtain ⟨some_ops, later⟩ := at_' g mem
        refine ⟨some_ops, ?_⟩
        unfold Before at before
        omega

theorem Passes.spans {e : Entry} (passes : m.Passes e m') : m.Spans m' where
  before := passes.before
  file low := by
    obtain ⟨-, -, -, low⟩ | ⟨-, file, -⟩ := passes.place
    · exact low
    · rwa [file]
  pos far := by
    have stop := passes.stop
    obtain ⟨-, pos, -, -⟩ | ⟨-, -, pos⟩ := passes.place
    · exact Nat.le_of_eq pos.symm
    · omega
  behind _ behind := passes.past_false behind
  commits := by
    obtain ⟨more, is, at_⟩ := passes.commits
    refine ⟨more, is, fun g mem => ?_⟩
    obtain ⟨some_ops, file, stop, stays⟩ := at_ g mem
    refine ⟨some_ops, .inr ⟨file.symm, ?_⟩⟩
    have further := passes.stop
    simp only [stays, Bool.false_eq_true, and_false, or_false] at further
    rwa [stop]

section log

variable [Unicode] {stem : Bytes} {tracked : List (String × List String)}

/-- An event other than a ROTATE leaves the server where the event ends. -/
theorem query_place {db sql : Text} (wrote : m.query tracked db sql = some m') :
    m'.file = m.file ∧ m'.pos = m.pos ∧ m.Commits m' := by
  unfold query at wrote
  split at wrote
  · cases wrote
    exact ⟨rfl, rfl, .same rfl⟩
  · obtain ⟨ops, -, rfl⟩ := Option.map_eq_some_iff.mp wrote
    exact ⟨m.land_file ops m.pos, m.land_pos ops m.pos, .land ops (m.land_committed ops m.pos)⟩
  · obtain ⟨ops, -, rfl⟩ := Option.map_eq_some_iff.mp wrote
    exact ⟨rfl, rfl, .same rfl⟩
  · split at wrote
    · cases wrote
      exact ⟨rfl, rfl, .same rfl⟩
    · cases wrote
  · cases wrote
    exact ⟨m.land_file _ m.pos, m.land_pos _ m.pos, .land _ (m.land_committed _ m.pos)⟩
  · cases wrote
    exact ⟨rfl, rfl, .same rfl⟩
  · cases wrote
    exact ⟨rfl, rfl, .same rfl⟩

/-- What an event does to the place: a ROTATE goes on in a later file, any other one
stays. -/
theorem write_place {body : BinlogEvent} (wrote : m.write? stem tracked body = some m') :
    ((∃ name, body = .rotate name ∧ name = fileName stem m'.file ∧ m'.pos = 4 ∧
        m.file < m'.file ∧ m'.file < 2 ^ 31 ∧ m'.committed = m.committed) ∨
      (∀ name, body ≠ .rotate name) ∧ m'.file = m.file ∧ m'.pos = m.pos ∧ m.Commits m') := by
  cases body with
  | rotate name =>
      dsimp only [write?] at wrote
      split at wrote
      · rename_i legal
        cases wrote
        exact .inl ⟨name, rfl, legal.2.2, rfl, legal.1, legal.2.1, rfl⟩
      · cases wrote
  | formatDescription =>
      cases wrote
      exact .inr ⟨fun name wrong => (by cases wrong), rfl, rfl, .same rfl⟩
  | transactionPayload => cases wrote
  | tableMap tableId db table cols =>
      obtain ⟨ops, -, rfl⟩ := Option.map_eq_some_iff.mp wrote
      exact .inr ⟨fun name wrong => (by cases wrong), rfl, rfl, .same rfl⟩
  | rows tableId changes =>
      obtain ⟨q, -, wrote⟩ := Option.bind_eq_some_iff.mp wrote
      obtain ⟨ops, -, rfl⟩ := Option.map_eq_some_iff.mp wrote
      exact .inr ⟨fun name wrong => (by cases wrong), rfl, rfl, .same rfl⟩
  | query db sql =>
      have place := query_place wrote
      exact .inr ⟨fun name wrong => (by cases wrong), place.1, place.2.1, place.2.2⟩
  | xid =>
      obtain ⟨ops, -, rfl⟩ := Option.map_eq_some_iff.mp wrote
      refine .inr ⟨fun name wrong => (by cases wrong), ?_, ?_, .land ops ?_⟩
      · exact land_file _ ops m.pos
      · exact land_pos _ ops m.pos
      · exact land_committed _ ops m.pos
  | coded code =>
      dsimp only [write?] at wrote
      split at wrote
      · cases wrote
        exact .inr ⟨fun name wrong => (by cases wrong), rfl, rfl, .same rfl⟩
      · split at wrote
        · cases wrote
          exact .inr ⟨fun name wrong => (by cases wrong), rfl, rfl, .same rfl⟩
        · cases wrote

theorem passes {e : Entry} (stepped : m.step? stem tracked e = some m') : m.Passes e m' := by
  unfold step? at stepped
  split at stepped
  · rename_i legal
    obtain ⟨name, is, -, pos, further, low, committed⟩ | ⟨stays, file, pos, more, committed, at_⟩ :=
      write_place stepped
    · have rotates : e.rotates = true := by rw [Entry.rotates, is]
      refine ⟨legal.1, legal.2, .inl ⟨rotates, pos, further, low⟩, [], ?_, fun g mem => ?_⟩
      · rw [committed, List.append_nil]
      · cases mem
    · have stays : e.rotates = false := by
        unfold Entry.rotates
        split
        · rename_i name is
          exact absurd is (stays name)
        · rfl
      refine ⟨legal.1, legal.2, .inr ⟨stays, file, pos⟩, more, committed, fun g mem => ?_⟩
      exact ⟨(at_ g mem).1, (at_ g mem).2.1, (at_ g mem).2.2, stays⟩
  · cases stepped

theorem run?_cons {e : Entry} {log : List Entry} :
    m.run? stem tracked (e :: log) =
      (m.step? stem tracked e).bind fun m' => m'.run? stem tracked log := List.foldlM_cons

theorem run?_append {log log' : List Entry} :
    m.run? stem tracked (log ++ log') =
      (m.run? stem tracked log).bind fun m' => m'.run? stem tracked log' := List.foldlM_append

theorem run?_snoc {log : List Entry} {e : Entry} {m'' : Master}
    (ran : m.run? stem tracked log = some m') (stepped : m'.step? stem tracked e = some m'') :
    m.run? stem tracked (log ++ [e]) = some m'' := by
  rw [run?_append, ran, Option.bind_some, run?_cons, stepped]
  rfl

theorem spans {log : List Entry} (ran : m.run? stem tracked log = some m') :
    m.Spans m' ∧ ∀ e ∈ log, e.past m'.file m'.pos = false := by
  induction log generalizing m with
  | nil =>
      cases ran
      exact ⟨.refl _, fun e mem => (by cases mem)⟩
  | cons e log ih =>
      rw [run?_cons] at ran
      obtain ⟨m₁, stepped, ran⟩ := Option.bind_eq_some_iff.mp ran
      have passes := passes stepped
      obtain ⟨further, behind⟩ := ih ran
      refine ⟨passes.spans.trans further, fun e' mem => ?_⟩
      cases List.mem_cons.mp mem with
      | inl is => exact is ▸ further.behind e passes.not_past
      | inr mem => exact behind e' mem

end log

/-- The watermark the place is. -/
def mark (m : Master) : Nat := m.file * 2 ^ 32 + m.pos

end Master

namespace Binlog

variable [Unicode] {log : Binlog} {m m' final : Master} {unread : List Entry} {mark : Nat}
variable {groups : List Group}

/-- Where a server is in its log, and what it has not sent from there. -/
def Reads (log : Binlog) (m : Master) (unread : List Entry) : Prop :=
  ∃ sent, log.entries = sent ++ unread ∧ log.master.run? log.stem log.tracked sent = some m

/-- A watermark a window may end at, and the groups committed up to it. -/
def Rests (log : Binlog) (mark : Nat) (groups : List Group) : Prop :=
  ∃ m unread, log.Reads m unread ∧ m.mark = mark ∧ m.pos < 2 ^ 32 ∧ m.bound = [] ∧
    m.pending = [] ∧ m.committed = groups

theorem Reads.start : log.Reads log.master log.entries := ⟨[], rfl, rfl⟩

theorem Reads.step {e : Entry} (reads : log.Reads m (e :: unread))
    (stepped : m.step? log.stem log.tracked e = some m') : log.Reads m' unread := by
  obtain ⟨sent, is, ran⟩ := reads
  refine ⟨sent ++ [e], ?_, Master.run?_snoc ran stepped⟩
  rw [is, List.append_assoc, List.singleton_append]

theorem Reads.spans (reads : log.Reads m unread) : log.master.Spans m := by
  obtain ⟨sent, -, ran⟩ := reads
  exact (Master.spans ran).1

theorem Reads.file_lt (reads : log.Reads m unread) : m.file < 2 ^ 31 :=
  reads.spans.file log.file_lt

/-- A committed group changed something. -/
theorem Reads.some_ops (reads : log.Reads m unread) : ∀ g ∈ m.committed, g.ops ≠ [] := by
  obtain ⟨more, is, some_ops⟩ := reads.spans.commits
  intro g mem
  rw [is] at mem
  exact (some_ops g mem).1

/-- The rest of a legal log. -/
theorem Reads.rest (reads : log.Reads m unread)
    (legal : log.master.run? log.stem log.tracked log.entries = some final) :
    m.run? log.stem log.tracked unread = some final := by
  obtain ⟨sent, is, ran⟩ := reads
  rwa [is, Master.run?_append, ran, Option.bind_some] at legal

theorem Rests.start : log.Rests log.mark [] :=
  ⟨log.master, log.entries, .start, rfl, log.pos_lt, rfl, rfl, rfl⟩

/-- What commits behind a watermark commits above it. -/
theorem Rests.later (rests : log.Rests mark groups)
    (legal : log.master.run? log.stem log.tracked log.entries = some final) :
    ∃ later, final.committed = groups ++ later ∧ ∀ g ∈ later, mark < g.tx.commit := by
  obtain ⟨m, unread, reads, rfl, low, -, -, rfl⟩ := rests
  obtain ⟨later, is, above⟩ := (Master.spans (reads.rest legal)).1.commits
  refine ⟨later, is, fun g mem => ?_⟩
  obtain ⟨-, above⟩ := above g mem
  change m.file * 2 ^ 32 + m.pos < g.file * 2 ^ 32 + g.stop
  omega

omit [Unicode] in
private theorem takeWhile_dropWhile (p : Entry → Bool) (front back : List Entry)
    (all : ∀ e ∈ front, p e = true) (stop : ∀ e ∈ back.head?, p e = false) :
    (front ++ back).takeWhile p = front ∧ (front ++ back).dropWhile p = back := by
  have nothing : back.takeWhile p = [] ∧ back.dropWhile p = back := by
    cases back with
    | nil => exact ⟨rfl, rfl⟩
    | cons e back =>
        have stops := stop e rfl
        exact ⟨List.takeWhile_cons_of_neg (by simp [stops]),
          List.dropWhile_cons_of_neg (by simp [stops])⟩
  rw [List.takeWhile_append_of_pos all, List.dropWhile_append_of_pos all, nothing.1, nothing.2,
    List.append_nil]
  exact ⟨rfl, rfl⟩

/-- A dump from a watermark a window ended at sends the log's events from there. -/
theorem Rests.connect (rests : log.Rests mark groups)
    (legal : log.master.run? log.stem log.tracked log.entries = some final) {file pos : Nat}
    (file_is : file = max (unpack mark).1 1) (pos_is : pos = max (unpack mark).2 4)
    (ran : log.master.run? log.stem log.tracked
      (log.entries.takeWhile fun e => !e.past file pos) = some m) :
    log.Reads m (log.entries.dropWhile fun e => !e.past file pos) ∧ m.file = file ∧
      m.mark = mark ∧ m.pos < 2 ^ 32 ∧ m.bound = [] ∧ m.pending = [] ∧ m.committed = groups := by
  obtain ⟨m₀, unread, reads, rfl, low, bound, pending, committed⟩ := rests
  obtain ⟨sent, is, ran₀⟩ := id reads
  have spans := reads.spans
  have far : 4 ≤ m₀.pos := spans.pos log.magic
  have counted : 0 < m₀.file := by
    have before := spans.before
    have first := log.file_pos
    change log.file < m₀.file ∨ log.file = m₀.file ∧ log.pos ≤ m₀.pos at before
    omega
  have parts : unpack m₀.mark = (m₀.file, m₀.pos) := by
    unfold unpack Master.mark
    refine Prod.ext ?_ ?_
    · dsimp only
      omega
    · dsimp only
      omega
  rw [parts] at file_is pos_is
  obtain rfl : file = m₀.file := by omega
  obtain rfl : pos = m₀.pos := by omega
  obtain ⟨-, behind⟩ := Master.spans ran₀
  have split := takeWhile_dropWhile (fun e => !e.past m₀.file m₀.pos) sent unread
    (fun e mem => by rw [behind e mem]; rfl) fun e mem => by
      cases unread with
      | nil => cases mem
      | cons e' rest =>
          cases mem
          have legal := reads.rest legal
          rw [Master.run?_cons] at legal
          obtain ⟨m₁, stepped, -⟩ := Option.bind_eq_some_iff.mp legal
          rw [(Master.passes stepped).past]
          rfl
  rw [is, split.1, ran₀] at ran
  cases ran
  rw [is, split.2]
  exact ⟨reads, rfl, rfl, low, bound, pending, committed⟩

end Binlog

end Mysource

end Apitap
