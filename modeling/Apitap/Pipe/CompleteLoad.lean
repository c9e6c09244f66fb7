import Mathlib.Algebra.BigOperators.Fin
import Apitap.Pipe.Crew

/-!
# Success means a complete load

A task's phase tells what it has done to its loader and to the latch. The latch is
claimed once, so the cause the loop keeps is the claimant's. The loop answers `Ok` only
when every task it joined had landed its rows, and a body that returns has seen the
queue empty.
-/

namespace Apitap.Pipe

/-! ## What a phase tells -/

namespace Phase

def ceased : Phase → Bool
  | .ended _ | .died _ => true
  | _ => false

/-- Calls made so far that took the loader. -/
def consumed : Phase → Nat
  | .body _ | .looked | .returned _ => 0
  | _ => 1

/-- The body returned, and nothing has failed since. -/
def ok : Phase → Bool
  | .returned (.ok _) | .finishing _ | .ended (.done _) => true
  | _ => false

/-- The body saw the queue empty. -/
def drained : Phase → Bool
  | .body drained => drained
  | p => p.ok

/-- The task's own claim of the latch was granted. -/
def claims : Phase → Bool
  | .aborting first => first
  | .ended (.cause _) => true
  | _ => false

def rows : Phase → Nat
  | .ended (.done n) => n
  | _ => 0

end Phase

/-! ## What a step of a task does -/

namespace Drive

variable {v v' : View} {events : List Event}

theorem running (drives : Drive v events v') : v.phase.ceased = false := by
  cases drives <;> rfl

theorem consumed (drives : Drive v events v') :
    v'.phase.consumed = v.phase.consumed + events.countP Event.consumes := by
  cases drives <;> rfl

theorem landed (drives : Drive v events v') (k : Nat) :
    .landed k ∈ events ↔ v'.phase = .ended (.done k) := by
  cases drives with
  | @aborted _ _ first => cases first <;> simp
  | _ => simp [eq_comm]

theorem ok (drives : Drive v events v') (is : v'.phase.ok = true) :
    v.phase.ok = true ∨ .ran true ∈ events := by
  cases drives with
  | @aborted _ _ first => cases first <;> nomatch is
  | _ => simp_all [Phase.ok]

theorem queue (drives : Drive v events v') :
    v.queue = (events.filterMap Event.sql).reverse ++ v'.queue := by
  cases drives <;> rfl

theorem empty (drives : Drive v events v') (before : v.phase.drained = true → v.queue = [])
    (is : v'.phase.drained = true) : v'.queue = [] := by
  cases drives with
  | drained => rfl
  | returns => exact before rfl
  | finish => exact before rfl
  | finished => exact before rfl
  | @aborted _ _ first => cases first <;> nomatch is
  | _ => nomatch is

theorem claimed (drives : Drive v events v') :
    .claimed ∈ events ↔ v.latch = false ∧ v'.latch = true := by
  cases drives <;> simp

theorem latch (drives : Drive v events v') (set : v.latch = true) : v'.latch = true := by
  cases drives <;> first | exact set | rfl

/-- A claimant reports the cause, unless it dies on the way. -/
theorem claimant (drives : Drive v events v') (is : v.phase.claims = true ∨ .claimed ∈ events) :
    v'.phase.claims = true ∨ ∃ e, v'.phase = .died e := by
  cases drives with
  | @aborted _ _ first => cases first <;> simp_all [Phase.claims]
  | finishPanics => exact .inr ⟨_, rfl⟩
  | abortPanics => exact .inr ⟨_, rfl⟩
  | _ => simp_all [Phase.claims]

theorem looks (drives : Drive v events v') (is : v'.phase = .looked) : v'.latch = false := by
  cases drives with
  | look => rfl
  | @aborted _ _ first => cases first <;> nomatch is
  | _ => nomatch is

/-- Only a task that has looked at the latch takes a statement. -/
theorem hands (drives : Drive v events v') {e : Event} (mem : e ∈ events) (hands : e.sql ≠ none) :
    v.phase = .looked := by
  cases drives with
  | pop => rfl
  | first =>
      obtain rfl | mem := List.mem_cons.mp mem
      · exact absurd rfl hands
      · obtain rfl := List.mem_singleton.mp mem
        exact absurd rfl hands
  | _ => simp_all [Event.sql]

theorem apart (drives : Drive v events v') :
    events.Pairwise fun newer older => newer.sql ≠ none → older ≠ .claimed := by
  cases drives <;> simp [Event.sql]

theorem claims (drives : Drive v events v') (is : v'.phase.claims = true) :
    v.phase.claims = true ∨ .claimed ∈ events := by
  cases drives with
  | @aborted _ _ first => cases first <;> simp_all [Phase.claims]
  | _ => simp_all [Phase.claims]

end Drive

/-! ## The tasks -/

namespace Crew

variable {n : Nat} {stmts : List String} {c c' : Crew n} {i : Fin n} {v : View}
  {events : List Event}

/-- How often a task's loader was taken. -/
def consumed (c : Crew n) (i : Fin n) : Nat :=
  c.events.countP fun e => e.1 = i ∧ e.2.consumes = true

structure Tasks (stmts : List String) (c : Crew n) : Prop where
  consumed : ∀ i, c.consumed i = (c.phase i).consumed
  landed : ∀ i k, (i, .landed k) ∈ c.events ↔ c.phase i = .ended (.done k)
  ran : ∀ i, (c.phase i).ok = true → (i, .ran true) ∈ c.events
  drained : ∀ i, (c.phase i).drained = true → c.queue = []
  latched : c.latch = true ↔ ∃ i, (i, .claimed) ∈ c.events
  once : ∀ i j, (i, .claimed) ∈ c.events → (j, .claimed) ∈ c.events → i = j
  claims : ∀ i, (c.phase i).claims = true → (i, .claimed) ∈ c.events
  claimant : ∀ i, (i, .claimed) ∈ c.events → (c.phase i).claims = true ∨ ∃ e, c.phase i = .died e
  handed : (c.events.filterMap (·.2.sql)).reverse ++ c.queue = stmts

theorem mem_put {j : Fin n} {e : Event} :
    (j, e) ∈ (c.put i events v).events ↔ j = i ∧ e ∈ events ∨ (j, e) ∈ c.events := by
  constructor
  · intro mem
    obtain mem | mem := List.mem_append.mp mem
    · obtain ⟨e', new, same⟩ := List.mem_map.mp mem
      obtain ⟨rfl, rfl⟩ := Prod.mk.inj same
      exact .inl ⟨rfl, new⟩
    · exact .inr mem
  · rintro (⟨rfl, mem⟩ | mem)
    · exact List.mem_append_left _ (List.mem_map_of_mem mem)
    · exact List.mem_append_right _ mem

theorem put_self : (c.put i events v).phase i = v.phase := Function.update_self ..

theorem put_ne {j : Fin n} (ne : j ≠ i) : (c.put i events v).phase j = c.phase j :=
  Function.update_of_ne ne ..

theorem consumed_put (j : Fin n) : (c.put i events v).consumed j =
    (if j = i then events.countP Event.consumes else 0) + c.consumed j := by
  unfold consumed
  show List.countP _ (_ ++ _) = _
  rw [List.countP_append, List.countP_map]
  congr 1
  split
  · rename_i same
    refine List.countP_congr fun e _ => ?_
    simp [same]
  · rename_i ne
    refine List.countP_eq_zero.mpr fun e _ => ?_
    simp [Ne.symm ne]

theorem Tasks.drive (tasks : Tasks stmts c) (drives : Drive (c.view i) events v) :
    Tasks stmts (c.put i events v) := by
  refine ⟨fun j => ?_, fun j k => ?_, fun j ok => ?_, fun j drained => ?_, ?_, fun j k hj hk => ?_,
    fun j claims => ?_, fun j mem => ?_, ?_⟩
  · rw [consumed_put, tasks.consumed j]
    by_cases same : j = i
    · subst same
      rw [if_pos rfl, put_self, drives.consumed, Nat.add_comm]
      rfl
    · rw [if_neg same, put_ne same, Nat.zero_add]
  · rw [mem_put, tasks.landed j k]
    by_cases same : j = i
    · subst same
      rw [put_self, ← drives.landed]
      refine ⟨?_, fun mem => .inl ⟨rfl, mem⟩⟩
      rintro (⟨-, mem⟩ | is)
      · exact mem
      · have running : (c.phase j).ceased = false := drives.running
        rw [is] at running
        nomatch running
    · rw [put_ne same]
      exact ⟨fun is => is.resolve_left fun is => same is.1, .inr⟩
  · rw [mem_put]
    by_cases same : j = i
    · subst same
      rw [put_self] at ok
      obtain ok | mem := drives.ok ok
      · exact .inr (tasks.ran j ok)
      · exact .inl ⟨rfl, mem⟩
    · rw [put_ne same] at ok
      exact .inr (tasks.ran j ok)
  · by_cases same : j = i
    · subst same
      rw [put_self] at drained
      exact drives.empty (tasks.drained j) drained
    · rw [put_ne same] at drained
      have queue : c.queue = (events.filterMap Event.sql).reverse ++ v.queue := drives.queue
      rw [tasks.drained j drained] at queue
      exact (List.append_eq_nil_iff.mp queue.symm).2
  · constructor
    · intro set
      cases was : c.latch with
      | true =>
          obtain ⟨j, mem⟩ := tasks.latched.mp was
          exact ⟨j, mem_put.mpr (.inr mem)⟩
      | false => exact ⟨i, mem_put.mpr (.inl ⟨rfl, drives.claimed.mpr ⟨was, set⟩⟩)⟩
    · rintro ⟨j, mem⟩
      obtain ⟨-, mem⟩ | mem := mem_put.mp mem
      · exact (drives.claimed.mp mem).2
      · exact drives.latch (tasks.latched.mpr ⟨j, mem⟩)
  · -- a new claim finds the latch free, so there was none before
    have free (new : .claimed ∈ events) (j : Fin n) : (j, .claimed) ∉ c.events := fun mem => by
      have set := tasks.latched.mpr ⟨j, mem⟩
      exact Bool.false_ne_true ((drives.claimed.mp new).1.symm.trans set)
    obtain ⟨j_is, new⟩ | old := mem_put.mp hj
    · obtain ⟨k_is, -⟩ | old := mem_put.mp hk
      · exact j_is.trans k_is.symm
      · exact absurd old (free new k)
    · obtain ⟨-, new⟩ | older := mem_put.mp hk
      · exact absurd old (free new j)
      · exact tasks.once j k old older
  · rw [mem_put]
    by_cases same : j = i
    · subst same
      rw [put_self] at claims
      obtain claims | mem := drives.claims claims
      · exact .inr (tasks.claims j claims)
      · exact .inl ⟨rfl, mem⟩
    · rw [put_ne same] at claims
      exact .inr (tasks.claims j claims)
  · by_cases same : j = i
    · subst same
      rw [put_self]
      obtain ⟨-, mem⟩ | mem := mem_put.mp mem
      · exact drives.claimant (.inr mem)
      · obtain claims | ⟨e, is⟩ := tasks.claimant j mem
        · exact drives.claimant (.inl claims)
        · have running : (c.phase j).ceased = false := drives.running
          rw [is] at running
          nomatch running
    · rw [put_ne same]
      exact tasks.claimant j ((mem_put.mp mem).resolve_left fun is => same is.1)
  · have new : (events.map (i, ·)).filterMap (·.2.sql) = events.filterMap Event.sql :=
      List.filterMap_map ..
    show (List.filterMap _ (_ ++ _)).reverse ++ v.queue = stmts
    rw [List.filterMap_append, new, List.reverse_append, List.append_assoc, ← drives.queue]
    exact tasks.handed

theorem start_tasks : Tasks stmts (start n stmts) where
  consumed _ := rfl
  landed _ _ := ⟨nofun, nofun⟩
  ran _ := nofun
  drained _ := nofun
  latched := ⟨nofun, fun ⟨_, mem⟩ => nomatch mem⟩
  once _ _ := nofun
  claims _ := nofun
  claimant _ := nofun
  handed := rfl

/-- The loop claims the latch in the name of a task that died. -/
theorem Tasks.claim {joined : Joined} {claiming : Option (Fin n × JoinError)}
    (tasks : Tasks stmts c)
    (free : c.latch = false) (died : ∃ e, c.phase i = .died e) : Tasks stmts { c with
      latch := true, events := (i, .claimed) :: c.events, joined := joined, claiming :=
        claiming } := by
  have none (j : Fin n) : (j, .claimed) ∉ c.events := fun mem =>
    Bool.false_ne_true (free.symm.trans (tasks.latched.mpr ⟨j, mem⟩))
  refine ⟨fun j => ?_, fun j k => ?_, fun j ok => ?_, tasks.drained, ?_, fun j k hj hk => ?_,
    fun j claims => ?_, fun j mem => ?_, tasks.handed⟩
  · rw [← tasks.consumed j]
    exact List.countP_cons_of_neg (by simp [Event.consumes])
  · rw [← tasks.landed j k]
    exact ⟨fun mem => (List.mem_cons.mp mem).resolve_left nofun, List.mem_cons_of_mem _⟩
  · exact List.mem_cons_of_mem _ (tasks.ran j ok)
  · exact ⟨fun _ => ⟨i, List.mem_cons_self⟩, fun _ => rfl⟩
  · obtain is | old := List.mem_cons.mp hj
    · obtain is' | old := List.mem_cons.mp hk
      · exact (Prod.mk.inj is).1.trans (Prod.mk.inj is').1.symm
      · exact absurd old (none k)
    · exact absurd old (none j)
  · exact List.mem_cons_of_mem _ (tasks.claims j claims)
  · obtain is | old := List.mem_cons.mp mem
    · exact .inr ((Prod.mk.inj is).1 ▸ died)
    · exact tasks.claimant j old

/-! ## The join loop -/

/-- Something went wrong with a task the loop has joined. -/
def Blamed (c : Crew n) : Prop :=
  c.joined.cause ≠ none ∨ c.joined.lost ≠ none ∨ c.joined.sawCancel = true ∨ c.claiming ≠ none

structure Loop (c : Crew n) : Prop where
  ceased : ∀ i ∈ c.seen, (c.phase i).ceased = true
  nodup : c.seen.Nodup
  cause : ∀ i ∈ c.seen, ∀ e, c.phase i = .ended (.cause e) → c.joined.cause = some e
  cancel : ∀ i ∈ c.seen, c.phase i = .ended .cancelled → c.joined.sawCancel = true
  died : ∀ i ∈ c.seen, ∀ e, c.phase i = .died e →
    c.joined.cause ≠ none ∨ c.joined.lost ≠ none ∨ c.claiming ≠ none
  rows : c.joined.rows = (c.seen.map fun i => (c.phase i).rows).sum
  blamed : Blamed c → ∃ i ∈ c.seen, ∀ k, c.phase i ≠ .ended (.done k)
  dead : ∀ i e, c.claiming = some (i, e) → c.phase i = .died e
  result : ∀ r, c.result = some r → (∀ i, i ∈ c.seen) ∧ c.claiming = none ∧ r = c.joined.answer

theorem start_loop : Loop (start n stmts) where
  ceased _ := nofun
  nodup := List.nodup_nil
  cause _ := nofun
  cancel _ := nofun
  died _ := nofun
  rows := rfl
  blamed blamed := by
    obtain is | is | is | is := blamed <;> exact absurd is (by simp [start])
  dead _ _ := nofun
  result _ := nofun

/-- A task that steps has not been joined. -/
theorem Loop.drive (loop : Loop c) (drives : Drive (c.view i) events v) :
    Loop (c.put i events v) := by
  have kept : ∀ j ∈ c.seen, (c.put i events v).phase j = c.phase j := by
    refine fun j mem => put_ne fun same => ?_
    subst same
    exact Bool.false_ne_true (drives.running.symm.trans (loop.ceased j mem))
  refine ⟨fun j mem => ?_, loop.nodup, fun j mem e is => ?_, fun j mem is => ?_,
    fun j mem e is => ?_, ?_, fun blamed => ?_, fun j e is => ?_, loop.result⟩
  · rw [kept j mem]
    exact loop.ceased j mem
  · exact loop.cause j mem e ((kept j mem).symm.trans is)
  · exact loop.cancel j mem ((kept j mem).symm.trans is)
  · exact loop.died j mem e ((kept j mem).symm.trans is)
  · refine loop.rows.trans (congrArg List.sum (List.map_congr_left fun j mem => ?_))
    rw [kept j mem]
  · obtain ⟨j, mem, undone⟩ := loop.blamed blamed
    exact ⟨j, mem, fun k => kept j mem ▸ undone k⟩
  · have died := loop.dead j e is
    refine (put_ne fun same => ?_).trans died
    subst same
    have running : (c.phase j).ceased = false := drives.running
    rw [died] at running
    nomatch running

theorem Loop.join {o : Outcome} (loop : Loop c) (tasks : Tasks stmts c) (idle : c.claiming = none)
    (new : i ∉ c.seen) (ended : c.phase i = .ended o) :
    Loop { c with seen := i :: c.seen, joined := c.joined.take o } := by
  have ceased : ∀ j ∈ i :: c.seen, (c.phase j).ceased = true := by
    intro j mem
    obtain rfl | mem := List.mem_cons.mp mem
    · rw [ended]
      rfl
    · exact loop.ceased j mem
  have open_ {r : Except Error Nat} (is : c.result = some r) : False :=
    new ((loop.result r is).1 i)
  have nodup := List.nodup_cons.mpr ⟨new, loop.nodup⟩
  have dead : ∀ j e, c.claiming = some (j, e) → c.phase j = .died e := idle ▸ nofun
  cases o with
  | done k =>
      refine ⟨ceased, nodup, fun j mem e is => ?_, fun j mem is => ?_, fun j mem e is => ?_, ?_,
        fun blamed => ?_, dead, fun r is => (open_ is).elim⟩
      · obtain rfl | mem := List.mem_cons.mp mem
        · nomatch ended.symm.trans is
        · exact loop.cause j mem e is
      · obtain rfl | mem := List.mem_cons.mp mem
        · nomatch ended.symm.trans is
        · exact loop.cancel j mem is
      · obtain rfl | mem := List.mem_cons.mp mem
        · nomatch ended.symm.trans is
        · exact loop.died j mem e is
      · show c.joined.rows + k = _
        rw [List.map_cons, List.sum_cons, ended, loop.rows, Nat.add_comm]
        rfl
      · obtain ⟨j, mem, undone⟩ := loop.blamed blamed
        exact ⟨j, List.mem_cons_of_mem _ mem, undone⟩
  | cause e' =>
      -- the latch is claimed once, so no cause was there before
      have claimed := tasks.claims i (by rw [ended]; rfl)
      refine ⟨ceased, nodup, fun j mem e is => ?_, fun j mem is => ?_, fun j mem e is =>
        .inl nofun, ?_,
        fun _ => ⟨i, List.mem_cons_self, fun k is => nomatch ended.symm.trans is⟩,
        dead, fun r is => (open_ is).elim⟩
      · obtain rfl | mem := List.mem_cons.mp mem
        · obtain is := Outcome.cause.inj (Phase.ended.inj (ended.symm.trans is))
          exact congrArg some is
        · have same := tasks.once i j claimed (tasks.claims j (by rw [is]; rfl))
          exact absurd (same ▸ mem) new
      · obtain rfl | mem := List.mem_cons.mp mem
        · nomatch ended.symm.trans is
        · exact loop.cancel j mem is
      · show c.joined.rows = _
        rw [List.map_cons, List.sum_cons, ended, loop.rows]
        exact (Nat.zero_add _).symm
  | cancelled =>
      refine ⟨ceased, nodup, fun j mem e is => ?_, fun _ _ _ => rfl, fun j mem e is => ?_, ?_,
        fun _ => ⟨i, List.mem_cons_self, fun k is => nomatch ended.symm.trans is⟩,
        dead, fun r is => (open_ is).elim⟩
      · obtain rfl | mem := List.mem_cons.mp mem
        · nomatch ended.symm.trans is
        · exact loop.cause j mem e is
      · obtain rfl | mem := List.mem_cons.mp mem
        · nomatch ended.symm.trans is
        · exact loop.died j mem e is
      · show c.joined.rows = _
        rw [List.map_cons, List.sum_cons, ended, loop.rows]
        exact (Nat.zero_add _).symm

theorem Loop.joinDied {e : JoinError} (loop : Loop c) (new : i ∉ c.seen)
    (died : c.phase i = .died e) :
    Loop { c with seen := i :: c.seen, claiming := some (i, e) } := by
  refine ⟨fun j mem => ?_, List.nodup_cons.mpr ⟨new, loop.nodup⟩, fun j mem e is => ?_,
    fun j mem is => ?_, fun _ _ _ _ => .inr (.inr nofun), ?_,
    fun _ => ⟨i, List.mem_cons_self, fun k is => nomatch died.symm.trans is⟩, fun j e is => ?_,
    fun r is => (new ((loop.result r is).1 i)).elim⟩
  · obtain rfl | mem := List.mem_cons.mp mem
    · rw [died]
      rfl
    · exact loop.ceased j mem
  · obtain rfl | mem := List.mem_cons.mp mem
    · nomatch died.symm.trans is
    · exact loop.cause j mem e is
  · obtain rfl | mem := List.mem_cons.mp mem
    · nomatch died.symm.trans is
    · exact loop.cancel j mem is
  · show c.joined.rows = _
    rw [List.map_cons, List.sum_cons, died, loop.rows]
    exact (Nat.zero_add _).symm
  · obtain ⟨rfl, rfl⟩ := Prod.mk.inj (Option.some.inj is)
    exact died

theorem Loop.step (loop : Loop c) (tasks : Tasks stmts c) (step : Step c c') : Loop c' := by
  cases step with
  | drive drives => exact loop.drive drives
  | join idle new ended => exact loop.join tasks idle new ended
  | joinDied _ new died => exact loop.joinDied new died
  | claim dead free =>
      refine ⟨loop.ceased, loop.nodup, fun j mem e is => ?_, loop.cancel, fun _ _ _ _ => .inl nofun,
        loop.rows, fun _ => loop.blamed (.inr (.inr (.inr (dead ▸ nofun)))), fun _ _ => nofun,
        fun r is => ?_⟩
      · have claimed := tasks.claims j (by rw [is]; rfl)
        exact absurd (free.symm.trans (tasks.latched.mpr ⟨j, claimed⟩)) Bool.false_ne_true
      · nomatch dead.symm.trans (loop.result r is).2.1
  | lose dead _ =>
      refine ⟨loop.ceased, loop.nodup, loop.cause, loop.cancel, fun _ _ _ _ => .inr (.inl ?_),
        loop.rows, fun _ => loop.blamed (.inr (.inr (.inr (dead ▸ nofun)))), fun _ _ => nofun,
        fun r is => ?_⟩
      · cases was : c.joined.lost <;> nofun
      · nomatch dead.symm.trans (loop.result r is).2.1
  | answer idle all =>
      refine ⟨loop.ceased, loop.nodup, loop.cause, loop.cancel, loop.died, loop.rows, loop.blamed,
        loop.dead, fun r is => ⟨all, idle, (Option.some.inj is).symm⟩⟩

theorem Tasks.step (tasks : Tasks stmts c) (loop : Loop c) (step : Step c c') : Tasks stmts c' := by
  cases step with
  | drive drives => exact tasks.drive drives
  | @claim _ e dead free => exact tasks.claim free ⟨e, loop.dead _ e dead⟩
  | join | joinDied | lose | answer =>
      exact ⟨tasks.consumed, tasks.landed, tasks.ran, tasks.drained, tasks.latched, tasks.once,
        tasks.claims, tasks.claimant, tasks.handed⟩

theorem Reaches.keeps (run : Reaches (start n stmts) c) : Tasks stmts c ∧ Loop c := by
  induction run with
  | refl => exact ⟨start_tasks, start_loop⟩
  | tail _ step ih => exact ⟨ih.1.step ih.2 step, ih.2.step ih.1 step⟩

/-! ## The answer -/

/-- Every statement was taken by a body that returned `Ok`, and every loader finished,
with this many rows in all. -/
def Loaded (stmts : List String) (c : Crew n) (m : Nat) : Prop :=
  (c.events.filterMap (·.2.sql)).reverse = stmts ∧
  (∀ i sql, (i, .handed sql) ∈ c.events → (i, .ran true) ∈ c.events) ∧
  ∃ rows : Fin n → Nat, (∀ i, (i, .landed (rows i)) ∈ c.events) ∧ m = ∑ i, rows i

/-- What holds when a crew has answered. -/
structure Complete (stmts : List String) (c : Crew n) (r : Except Error Nat) : Prop where
  ended : ∀ i, (c.phase i).ceased = true
  consumed : ∀ i, c.consumed i = 1
  ok : ∀ m, r = .ok m ↔ Loaded stmts c m
  first : ∀ i j, (i, .claimed) ∈ c.events → (j, .claimed) ∈ c.events → i = j
  cause : ∀ i, (i, .claimed) ∈ c.events →
    (∃ e, c.phase i = .ended (.cause e) ∧ r = .error e) ∨ ∃ e, c.phase i = .died e

/-- `Ok` is what nothing stands against. -/
theorem answer_ok {j : Joined} {m : Nat} :
    j.answer = .ok m ↔ j.cause = none ∧ j.lost = none ∧ j.sawCancel = false ∧ j.rows = m := by
  cases cause : j.cause <;> cases lost : j.lost <;> cases cancel : j.sawCancel <;>
    simp [Joined.answer, cause, lost, cancel]

/-- All that the loop joined had landed. -/
theorem Loop.landed (loop : Loop c) (all : ∀ i, i ∈ c.seen) (idle : c.claiming = none) (m : Nat) :
    c.joined.answer = .ok m ↔
      (∀ i, ∃ k, c.phase i = .ended (.done k)) ∧ m = ∑ i, (c.phase i).rows := by
  have sum : c.joined.rows = ∑ i, (c.phase i).rows := by
    have perm : c.seen.Perm (List.finRange n) :=
      (List.perm_ext_iff_of_nodup loop.nodup (List.nodup_finRange n)).mpr fun i =>
        ⟨fun _ => List.mem_finRange i, fun _ => all i⟩
    rw [loop.rows, Fin.sum_univ_def]
    exact (perm.map _).sum_eq
  rw [answer_ok, sum]
  constructor
  · rintro ⟨cause, lost, cancel, rfl⟩
    refine ⟨fun i => ?_, rfl⟩
    have ceased := loop.ceased i (all i)
    cases is : c.phase i with
    | ended o =>
        cases o with
        | done k => exact ⟨k, rfl⟩
        | cause e => nomatch cause.symm.trans (loop.cause i (all i) e is)
        | cancelled => nomatch cancel.symm.trans (loop.cancel i (all i) is)
    | died e =>
        obtain blamed | blamed | blamed := loop.died i (all i) e is
        · exact absurd cause blamed
        · exact absurd lost blamed
        · exact absurd idle blamed
    | _ => rw [is] at ceased; nomatch ceased
  · rintro ⟨done, rfl⟩
    have fine : ¬ Blamed c := fun blamed => by
      obtain ⟨i, -, undone⟩ := loop.blamed blamed
      obtain ⟨k, is⟩ := done i
      exact undone k is
    obtain ⟨cause, lost, cancel, -⟩ : c.joined.cause = none ∧ c.joined.lost = none ∧
        c.joined.sawCancel = false ∧ c.claiming = none := by simpa [Blamed] using fine
    exact ⟨cause, lost, cancel, rfl⟩

/-- With a pipe, every statement is taken by the time every loader has landed. -/
theorem Tasks.loaded (tasks : Tasks stmts c) (some_ : 0 < n) (m : Nat) :
    Loaded stmts c m ↔ (∀ i, ∃ k, c.phase i = .ended (.done k)) ∧ m = ∑ i, (c.phase i).rows := by
  constructor
  · rintro ⟨-, -, rows, landed, rfl⟩
    have is (i : Fin n) := (tasks.landed i (rows i)).mp (landed i)
    refine ⟨fun i => ⟨rows i, is i⟩, Finset.sum_congr rfl fun i _ => ?_⟩
    rw [is i]
    rfl
  · rintro ⟨done, rfl⟩
    have ok (i : Fin n) : (c.phase i).ok = true := by
      obtain ⟨k, is⟩ := done i
      rw [is]
      rfl
    refine ⟨?_, fun i _ _ => tasks.ran i (ok i), fun i => (c.phase i).rows, fun i => ?_, rfl⟩
    · have empty : c.queue = [] := by
        refine tasks.drained ⟨0, some_⟩ ?_
        obtain ⟨k, is⟩ := done ⟨0, some_⟩
        rw [is]
        rfl
      have handed := tasks.handed
      rwa [empty, List.append_nil] at handed
    · obtain ⟨k, is⟩ := done i
      refine (tasks.landed i _).mpr ?_
      show c.phase i = .ended (.done (c.phase i).rows)
      rw [is]
      rfl

theorem Reaches.complete {r : Except Error Nat} (some_ : 0 < n) (run : Reaches (start n stmts) c)
    (answered : c.result = some r) : Complete stmts c r := by
  obtain ⟨tasks, loop⟩ := run.keeps
  obtain ⟨all, idle, rfl⟩ := loop.result r answered
  have ceased (i : Fin n) := loop.ceased i (all i)
  refine ⟨ceased, fun i => ?_, fun m => ?_, tasks.once, fun i mem => ?_⟩
  · rw [tasks.consumed i]
    have ceased := ceased i
    cases is : c.phase i with
    | ended | died => rfl
    | _ => rw [is] at ceased; nomatch ceased
  · exact (loop.landed all idle m).trans (tasks.loaded some_ m).symm
  · obtain claims | died := tasks.claimant i mem
    · have ceased := ceased i
      cases is : c.phase i with
      | ended o =>
          rw [is] at claims
          cases o with
          | cause e =>
              refine .inl ⟨e, rfl, ?_⟩
              unfold Joined.answer
              rw [loop.cause i (all i) e is]
          | _ => nomatch claims
      | died e => exact .inr ⟨e, rfl⟩
      | _ => rw [is] at ceased; nomatch ceased
    · exact .inr died

/-! ## The queue after a failure -/

/-- No statement was handed out after the latch was claimed. -/
def InTime (c : Crew n) : Prop :=
  c.events.Pairwise fun newer older => newer.2.sql ≠ none → older.2 ≠ .claimed

/-- The latch is not claimed while a task is between its look at it and its pop. -/
def Calm (c c' : Crew n) : Prop := c.latch = false → c'.latch = true → ∀ i, c.phase i ≠ .looked

/-- A run whose every step is calm. -/
abbrev CalmReaches : Crew n → Crew n → Prop := Relation.ReflTransGen fun c c' =>
    Step c c' ∧ Calm c c'

/-- Nobody is about to pop once the latch is set. -/
structure Timely (c : Crew n) : Prop where
  settled : c.latch = true → ∀ i, c.phase i ≠ .looked
  inTime : InTime c

theorem Timely.step (timely : Timely c) (tasks : Tasks stmts c) (step : Step c c')
    (calm : Calm c c') :
    Timely c' := by
  cases step with
  | @drive i events v drives =>
      refine ⟨fun set j is => ?_, ?_⟩
      · by_cases same : j = i
        · subst same
          rw [put_self] at is
          exact Bool.false_ne_true ((drives.looks is).symm.trans set)
        · rw [put_ne same] at is
          cases was : c.latch with
          | true => exact timely.settled was j is
          | false => exact calm was set j is
      · refine List.pairwise_append.mpr ⟨?_, timely.inTime, fun newer mem older old hands is => ?_⟩
        · exact List.pairwise_map.mpr drives.apart
        · obtain ⟨e, new, rfl⟩ := List.mem_map.mp mem
          have set : c.latch = true :=
            tasks.latched.mpr ⟨older.1, (show older = (older.1, .claimed) from Prod.ext
              rfl is) ▸ old⟩
          exact timely.settled set i (drives.hands new hands)
  | claim dead free =>
      refine ⟨fun _ => calm free rfl, List.pairwise_cons.mpr ⟨fun _ _ hands => absurd rfl hands,
        timely.inTime⟩⟩
  | join | joinDied | lose | answer => exact ⟨timely.settled, timely.inTime⟩

theorem CalmReaches.inTime (run : CalmReaches (start n stmts) c) : InTime c := by
  suffices Tasks stmts c ∧ Loop c ∧ Timely c from this.2.2.inTime
  induction run with
  | refl => exact ⟨start_tasks, start_loop, fun _ _ => nofun, List.Pairwise.nil⟩
  | tail _ step ih =>
      obtain ⟨tasks, loop, timely⟩ := ih
      exact ⟨tasks.step loop step.1, loop.step tasks step.1, timely.step tasks step.1 step.2⟩

end Crew

/-! ## Opening -/

/-- How often a loader was taken while the set was opened. -/
def taken (events : List (Nat × Event)) (i : Nat) : Nat :=
  events.countP fun e => e.1 = i ∧ e.2.consumes = true

theorem taken_abort (k : Nat) (cause : Error) (events : List (Nat × Event)) (i : Nat) :
    taken ((k, .abort cause) :: events) i = taken events i + if k = i then 1 else 0 := by
  unfold taken
  rw [List.countP_cons]
  congr 1
  simp [Event.consumes]

/-- Aborts of loaders in order: each once, as far as the first panic. -/
theorem taken_takeBack (aborts : Nat → Option String) (k left i : Nat) :
    taken (takeBack aborts (List.range' k left)).2 i =
      if k ≤ i ∧ i < k + left ∧ ∀ j, k ≤ j → j < i → aborts j = none then 1 else 0 := by
  induction left generalizing k with
  | zero => exact (if_neg (by omega)).symm
  | succ left ih =>
      rw [List.range'_succ, takeBack]
      cases panic : aborts k with
      | some text =>
          rw [taken_abort]
          by_cases here : k = i
          · subst here
            rw [if_pos rfl, if_pos]
            · rfl
            · exact ⟨Nat.le_refl _, by omega, fun j le lt => absurd lt (Nat.not_lt.mpr le)⟩
          · rw [if_neg here, if_neg]
            · rfl
            · rintro ⟨le, -, before⟩
              exact Option.some_ne_none _ (panic.symm.trans (before k (Nat.le_refl _) (by omega)))
      | none =>
          rw [taken_abort, ih]
          by_cases here : k = i
          · subst here
            rw [if_pos rfl, if_neg (by omega), if_pos]
            exact ⟨Nat.le_refl _, by omega, fun j le lt => absurd lt (Nat.not_lt.mpr le)⟩
          · rw [if_neg here, Nat.add_zero]
            refine if_congr ⟨fun ⟨le, lt, before⟩ => ?_, fun ⟨le, lt, before⟩ => ?_⟩ rfl rfl
            · refine ⟨by omega, by omega, fun j low high => ?_⟩
              by_cases first : j = k
              · exact first ▸ panic
              · exact before j (by omega) high
            · exact ⟨by omega, by omega, fun j low high => before j (by omega) high⟩

/-- The open fails at `k`, and what was open is taken back. -/
theorem openFrom_failed {opens : Nat → Except Error Unit} {aborts : Nat → Option String} {e : Error}
    {left at_ k : Nat} (reached : at_ ≤ k) (within : k < at_ + left)
    (before : ∀ i, i < k → opens i = .ok ()) (fails : opens k = .error e) :
    (openFrom opens aborts left at_).2 = (takeBack aborts (List.range k)).2 := by
  induction left generalizing at_ with
  | zero => omega
  | succ left ih =>
      rw [openFrom]
      by_cases here : at_ = k
      · subst here
        rw [fails]
        dsimp only
        split
        · rename_i taken
          exact (congrArg Prod.snd taken).symm
        · rename_i taken
          exact (congrArg Prod.snd taken).symm
      · rw [before at_ (by omega)]
        exact ih (by omega) (by omega)

/-- When the `k`-th open fails, each loader before it is taken once exactly when no abort
of one that is not the last panics. -/
theorem open_takes_back {opens : Nat → Except Error Unit} {aborts : Nat → Option String} {e : Error}
    {n k : Nat} (within : k < n) (before : ∀ i, i < k → opens i = .ok ())
    (fails : opens k = .error e) :
    (∀ i, i < k → taken (openPipes n opens aborts).2 i = 1) ↔ ∀ i, i + 1 < k → aborts i = none := by
  have once (i : Nat) (lt : i < k) : taken (openPipes n opens aborts).2 i = 1 ↔
      ∀ j, j < i → aborts j = none := by
    have events : (openPipes n opens aborts).2 = _ :=
      openFrom_failed (Nat.zero_le k) (by omega) before fails
    rw [events, List.range_eq_range', taken_takeBack]
    constructor
    · intro is j below
      by_contra panics
      rw [if_neg fun all => panics (all.2.2 j (Nat.zero_le j) below)] at is
      nomatch is
    · intro calm
      exact if_pos ⟨Nat.zero_le i, by omega, fun j _ => calm j⟩
  constructor
  · exact fun all i lt => (once (i + 1) lt).mp (all (i + 1) lt) i (Nat.lt_succ_self i)
  · exact fun calm i lt => (once i lt).mpr fun j below => calm j (by omega)

/-- A crew of at least one pipe: an answer, in any run, comes when every task has ended
and every loader was taken once, it is `Ok` exactly for a complete load, and else the
claimant's error if it lived; in a calm run no statement is handed out after the claim;
and a failed open takes back what was open exactly when no abort before the last panics. -/
theorem complete_load {n : Nat} (stmts : List String) (some_ : 0 < n) :
    (∀ c r, Crew.Reaches (Crew.start n stmts) c → c.result = some r → c.Complete stmts r) ∧
    (∀ c, Crew.CalmReaches (Crew.start n stmts) c → c.InTime) ∧
    ∀ opens aborts k e, k < n → (∀ i, i < k → opens i = .ok ()) → opens k = .error e →
      ((∀ i, i < k → taken (openPipes n opens aborts).2 i = 1) ↔
        ∀ i, i + 1 < k → aborts i = none) :=
  ⟨fun _ _ run answered => run.complete some_ answered, fun _ run => run.inTime,
    fun _ _ _ _ within before fails => open_takes_back within before fails⟩

/-- A pipe's load fails while its sibling loads, and an open fails behind two loaders. -/
theorem complete_load_sibling :
    (∃ c : Crew 2, c.Complete ["SELECT 1", "SELECT 2"] (.error (.transfer "boom")) ∧
      c.InTime) ∧
    ∀ i, i < 2 → taken (openPipes 3
      (fun k => if k = 2 then .error (.transfer "the third open failed") else .ok ())
      fun k => if k = 1 then some "abort exploded" else none).2 i = 1 := by
  have calm : Crew.CalmReaches (Crew.start 2 ["SELECT 1", "SELECT 2"]) _ :=
    .head ⟨.drive (i := 1) .look, fun _ set => nomatch set⟩ <|
    .head ⟨.drive (i := 1) .pop, fun _ set => nomatch set⟩ <|
    .head ⟨.drive (i := 0)
      (.fails : Drive _ _ ⟨_, _, .returned (.err (.transfer "boom"))⟩),
      fun _ set => nomatch set⟩ <|
    .head ⟨.drive (i := 0) (.first rfl), fun _ _ => Fin.forall_fin_two.mpr ⟨nofun, nofun⟩⟩ <|
    .head ⟨.drive (i := 1) .refused, fun free => nomatch free⟩ <|
    .head ⟨.drive (i := 1) (.second rfl), fun free => nomatch free⟩ <|
    .head ⟨.drive (i := 1) (.aborted (e := cancelled)), fun free => nomatch free⟩ <|
    .head ⟨.join (i := 1) rfl nofun rfl, fun free => nomatch free⟩ <|
    .head ⟨.drive (i := 0) (.aborted (e := .transfer "boom")), fun free => nomatch free⟩ <|
    .head ⟨.join (i := 0) rfl
      (fun mem => Fin.zero_ne_one (List.mem_singleton.mp mem)) rfl, fun free => nomatch free⟩ <|
    .head ⟨.answer rfl (Fin.forall_fin_two.mpr ⟨.head _, .tail _ (.head _)⟩),
      fun free => nomatch free⟩ .refl
  have load := complete_load (n := 2) ["SELECT 1", "SELECT 2"] (by decide)
  refine ⟨⟨_, load.1 _ _ (calm.lift id fun _ _ step => step.1) rfl,
    load.2.1 _ calm⟩, ?_⟩
  apply ((complete_load (n := 3) [] (by decide)).2.2 _ _ 2 _ (by decide)
    (fun i lt => if_neg (Nat.ne_of_lt lt)) rfl).mpr
  intro i lt
  exact if_neg (by omega)

/-- The abort of the first loader panics while the third open's failure is taken back, and
the second loader is dropped; and a sibling claims the latch between a task's look at it
and its pop. -/
theorem loads_incomplete :
    (¬ ∀ n opens aborts k e, k < n → (∀ i, i < k → opens i = .ok ()) → opens k = .error e →
      ∀ i, i < k → taken (openPipes n opens aborts).2 i = 1) ∧
    ¬ ∀ n stmts (c : Crew n), 0 < n → Crew.Reaches (Crew.start n stmts) c → c.InTime := by
  constructor
  · intro holds
    have taken := holds 3 (fun i =>
      if i = 2 then .error (.transfer "the third open failed") else .ok ())
      (fun i => if i = 0 then some "abort exploded" else none) 2 _ (by decide)
      (fun i lt => if_neg (by omega)) rfl 1 (by decide)
    exact absurd taken (by decide)
  · intro holds
    have run : Crew.Reaches (Crew.start 2 ["SELECT 1"]) _ :=
      .head (.drive (i := 0) .look) <|
      .head (.drive (i := 1) (.fails : Drive _ _ ⟨_, _, .returned (.err (.transfer "boom"))⟩)) <|
      .head (.drive (i := 1) (.first rfl)) <| .head (.drive (i := 0) .pop) .refl
    have inTime := holds 2 _ _ (by decide) run
    refine (List.pairwise_cons.mp inTime).1 (1, .claimed) ?_ nofun rfl
    exact List.mem_cons_of_mem _ List.mem_cons_self

end Apitap.Pipe
