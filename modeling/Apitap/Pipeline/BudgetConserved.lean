import Apitap.Pipeline.Grant

/-!
# The pipe budget is conserved

What every table's phase keeps, and what the semaphore keeps of the tables, through every step
of every table: permits held and permits free are the budget, a grant counts what it holds, and
whoever waits waits for a table that runs. A grant counts an ask of 2³² pipes or more for more
than it got.
-/

namespace Apitap.Pipeline

open Foundation

/-- A grant that counts what it holds, at least one permit. -/
structure Grant.Whole (g : Grant) : Prop where
  count : g.count = g.held.sum
  positive : 1 ≤ g.count

/-- A resize that shrinks does not pass its target, nor does one that grows. -/
structure Grant.Between (g : Grant) (from_ target : Nat) : Prop where
  shrinks : target ≤ from_ → target ≤ g.count ∧ g.count ≤ from_
  grows : from_ ≤ target → from_ ≤ g.count ∧ g.count ≤ target

/-- What a table's phase keeps. -/
def Phase.Kept (budget : Nat) : Phase → Prop
  | .fresh | .ended => True
  | .waiting want => 1 ≤ want ∧ want ≤ budget ∧ want < 2 ^ 32
  | .running _ g => g.Whole
  | .resizing _ g from_ target => g.Whole ∧ g.Between from_ target ∧ 1 ≤ target

/-- The permits that the first `n` tables hold. -/
def heldBy (n : Nat) (tables : Nat → Phase) : Nat := ∑ i ∈ Finset.range n, (tables i).held

variable {n budget i want : Nat} {tables : Nat → Phase} {g : Grant} {sem : Semaphore Nat}

theorem heldBy_update (tables : Nat → Phase) (within : i < n) (p : Phase) :
    heldBy n (Function.update tables i p) + (tables i).held = heldBy n tables + p.held := by
  have mem : i ∈ Finset.range n := Finset.mem_range.mpr within
  have same : ∀ j ∈ (Finset.range n).erase i,
      (Function.update tables i p j).held = (tables j).held := by
    intro j j_mem
    rw [Function.update_of_ne (Finset.ne_of_mem_erase j_mem)]
  rw [heldBy, heldBy, ← Finset.add_sum_erase _ _ mem, ← Finset.add_sum_erase _ _ mem,
    Finset.sum_congr rfl same, Function.update_self]
  omega

theorem asU32_of_lt (small : want < 2 ^ 32) : asU32 want = want := Nat.mod_eq_of_lt small

theorem wake_wake (p : Phase) : p.wake.wake = p.wake := by
  cases p <;> rfl

theorem wakeAll_eq (ws : List (Nat × Nat)) (tables : Nat → Phase) (i : Nat) :
    ManyRun.wakeAll ws tables i = if i ∈ ws.map Prod.fst then (tables i).wake else tables i := by
  induction ws generalizing tables with
  | nil => rfl
  | cons w ws ih =>
      rw [ManyRun.wakeAll, ih]
      by_cases here : i = w.1
      · subst here
        rw [Function.update_self, wake_wake, ite_self, List.map_cons, if_pos List.mem_cons_self]
      · have later : i ∈ (w :: ws).map Prod.fst ↔ i ∈ ws.map Prod.fst := by
          rw [List.map_cons, List.mem_cons]
          exact or_iff_right here
        rw [Function.update_of_ne here]
        simp only [later]

/-- What the queue says of the tables. -/
structure Queued (n : Nat) (ws : List (Nat × Nat)) (tables : Nat → Phase) : Prop where
  nodup : (ws.map Prod.fst).Nodup
  waits : ∀ w ∈ ws, w.1 < n ∧ tables w.1 = .waiting w.2 ∧ w.2 < 2 ^ 32

theorem Queued.cons {w : Nat × Nat} {ws : List (Nat × Nat)} (queued : Queued n (w :: ws) tables)
    (p : Phase) : Queued n ws (Function.update tables w.1 p) := by
  obtain ⟨once, nodup⟩ := List.nodup_cons.mp queued.nodup
  refine ⟨nodup, ?_⟩
  intro v v_mem
  have other : v.1 ≠ w.1 := by
    intro same
    exact once (same ▸ List.mem_map_of_mem v_mem)
  rw [Function.update_of_ne other]
  exact queued.waits v (List.mem_cons_of_mem _ v_mem)

/-- The served hold what they waited for. -/
theorem heldBy_wakeAll {ws : List (Nat × Nat)} (queued : Queued n ws tables) :
    heldBy n (ManyRun.wakeAll ws tables) = heldBy n tables + (ws.map Prod.snd).sum := by
  induction ws generalizing tables with
  | nil => rfl
  | cons w ws ih =>
      obtain ⟨within, waits, small⟩ := queued.waits w List.mem_cons_self
      have one := heldBy_update tables within (tables w.1).wake
      have held : (tables w.1).wake.held = w.2 := by
        rw [waits]
        exact (Nat.add_zero _).trans (asU32_of_lt small)
      have none : (tables w.1).held = 0 := by
        rw [waits]
        rfl
      rw [ManyRun.wakeAll, ih (queued.cons _), List.map_cons, List.sum_cons]
      omega

/-! ## What the semaphore and the tables keep -/

/-- The semaphore and the tables, with `hand` permits on their way back. -/
structure Sound (n budget hand : Nat) (sem : Semaphore Nat) (tables : Nat → Phase) : Prop where
  fair : sem.Fair
  ledger : sem.free + heldBy n tables + hand = budget
  queued : Queued n sem.waiting tables
  inQueue : ∀ i want, tables i = .waiting want → (i, want) ∈ sem.waiting
  kept : ∀ i, (tables i).Kept budget
  within : ∀ i, tables i ≠ .fresh → i < n

variable {k hand cap : Nat} {sem' : Semaphore Nat} {p : Phase}

theorem Phase.Kept.wake (kept : p.Kept budget) : p.wake.Kept budget := by
  cases p with
  | waiting want =>
      obtain ⟨positive, -, small⟩ := kept
      exact ⟨(asU32_of_lt small).symm, positive⟩
  | fresh => exact kept
  | running granted g => exact kept
  | resizing granted g from_ target => exact kept
  | ended => exact kept

/-- The served have what they waited for, the others are as they were. -/
theorem of_wakeAll {ws : List (Nat × Nat)} (other : ∀ want, p ≠ .acquired want)
    (is : ManyRun.wakeAll ws tables i = p) : tables i = p := by
  rw [wakeAll_eq] at is
  split at is
  · cases was : tables i with
    | waiting want =>
        rw [was] at is
        exact absurd is.symm (other want)
    | _ =>
        rw [was] at is
        exact is
  · exact is

theorem wakeAll_calm {ws : List (Nat × Nat)} (calm : p.wake = p) (is : tables i = p) :
    ManyRun.wakeAll ws tables i = p := by
  rw [wakeAll_eq, is, calm, ite_self]

theorem wakeAll_ended {ws : List (Nat × Nat)} :
    ManyRun.wakeAll ws tables i = .ended ↔ tables i = .ended :=
  ⟨of_wakeAll fun want no => (by cases no), wakeAll_calm rfl⟩

/-- Permits come back. -/
theorem Sound.release (sound : Sound n budget (hand + k) sem tables) :
    Sound n budget hand (sem.release k).2 (ManyRun.wakeAll (sem.release k).1 tables) := by
  have split : (sem.release k).1 ++ (sem.release k).2.waiting = sem.waiting :=
    Semaphore.serve_waiting
  have free : (sem.release k).2.free + ((sem.release k).1.map Prod.snd).sum = sem.free + k :=
    Semaphore.serve_free
  have queued := sound.queued
  rw [← split] at queued
  have nodup := queued.nodup
  rw [List.map_append] at nodup
  obtain ⟨first, last, apart⟩ := List.nodup_append.mp nodup
  have served : Queued n (sem.release k).1 tables :=
    ⟨first, fun w w_mem => queued.waits w (List.mem_append_left _ w_mem)⟩
  refine ⟨Semaphore.serve_fair, ?_, ⟨last, ?_⟩, ?_, ?_, ?_⟩
  · have ledger := sound.ledger
    rw [heldBy_wakeAll served]
    omega
  · intro w w_mem
    obtain ⟨within, waits, small⟩ := queued.waits w (List.mem_append_right _ w_mem)
    refine ⟨within, ?_, small⟩
    have unserved : w.1 ∉ (sem.release k).1.map Prod.fst := fun served =>
      apart w.1 served w.1 (List.mem_map_of_mem w_mem) rfl
    rw [wakeAll_eq, if_neg unserved]
    exact waits
  · intro i want waits
    have was : tables i = .waiting want := of_wakeAll (fun want no => (by cases no)) waits
    have mem := sound.inQueue i want was
    rw [← split] at mem
    rcases List.mem_append.mp mem with first | later
    · rw [wakeAll_eq, if_pos (List.mem_map_of_mem first), was] at waits
      cases waits
    · exact later
  · intro i
    rw [wakeAll_eq]
    split
    · exact (sound.kept i).wake
    · exact sound.kept i
  · intro i begun
    apply sound.within
    intro fresh
    exact begun (wakeAll_calm rfl fresh)

/-- A table's place in the queue. -/
def Phase.place (i : Nat) : Phase → List (Nat × Nat)
  | .waiting want => [(i, want)]
  | _ => []

theorem Phase.mem_place {w : Nat × Nat} : w ∈ p.place i ↔ w.1 = i ∧ p = .waiting w.2 := by
  cases p with
  | waiting want =>
      rw [place, List.mem_singleton, Prod.ext_iff]
      refine and_congr_right fun _ => ?_
      constructor
      · intro is
        rw [is]
      · intro is
        cases is
        rfl
  | _ => exact iff_of_false (fun no => by cases no) (fun no => by cases no.2)

/-- A table that does not wait changes its phase. -/
theorem Sound.update {hand' : Nat} (sound : Sound n budget hand sem tables) (within : i < n)
    (unqueued : ∀ want, tables i ≠ .waiting want) (fair : sem'.Fair)
    (waiting : sem'.waiting = sem.waiting ++ p.place i)
    (balance : sem'.free + p.held + hand' = sem.free + (tables i).held + hand)
    (kept : p.Kept budget) : Sound n budget hand' sem' (Function.update tables i p) := by
  have other {j : Nat} (ne : j ≠ i) : Function.update tables i p j = tables j :=
    Function.update_of_ne ne _ _
  have here : Function.update tables i p i = p := Function.update_self _ _ _
  have apart : ∀ w ∈ sem.waiting, w.1 ≠ i := by
    rintro w w_mem rfl
    exact unqueued w.2 (sound.queued.waits w w_mem).2.1
  refine ⟨fair, ?_, ⟨?_, ?_⟩, ?_, ?_, ?_⟩
  · have ledger := sound.ledger
    have held := heldBy_update tables within p
    omega
  · rw [waiting, List.map_append]
    refine sound.queued.nodup.append ?_ ?_
    · cases p with
      | waiting want => exact List.nodup_singleton i
      | _ => exact List.nodup_nil
    · intro j old new
      obtain ⟨v, v_mem, rfl⟩ := List.mem_map.mp old
      obtain ⟨w, w_mem, same⟩ := List.mem_map.mp new
      exact apart v v_mem (same.symm.trans (Phase.mem_place.mp w_mem).1)
  · intro w w_mem
    rw [waiting] at w_mem
    rcases List.mem_append.mp w_mem with old | new
    · rw [other (apart w old)]
      exact sound.queued.waits w old
    · obtain ⟨at_, is⟩ := Phase.mem_place.mp new
      rw [at_, here]
      rw [is] at kept
      exact ⟨within, is, kept.2.2⟩
  · intro j want waits
    rw [waiting]
    by_cases same : j = i
    · subst same
      rw [here] at waits
      exact List.mem_append_right _ (Phase.mem_place.mpr ⟨rfl, waits⟩)
    · rw [other same] at waits
      exact List.mem_append_left _ (sound.inQueue j want waits)
  · intro j
    by_cases same : j = i
    · rw [same, here]
      exact kept
    · rw [other same]
      exact sound.kept j
  · intro j begun
    by_cases same : j = i
    · exact same ▸ within
    · rw [other same] at begun
      exact sound.within j begun

/-! ## What the results keep -/

/-- One result for each table that has ended. -/
structure Reported (jobs : List TableJob) (s : ManyRun) : Prop where
  once : (s.results.map Prod.fst).Nodup
  ended : ∀ i, i ∈ s.results.map Prod.fst ↔ s.tables i = .ended
  named : ∀ r ∈ s.results, ∃ job, jobs[r.1]? = some job ∧ r.2.table = job.table

variable {jobs : List TableJob} {s s' : ManyRun} {job : TableJob}

theorem Reported.congr (reported : Reported jobs s) (same : s'.results = s.results)
    (tables : ∀ i, s'.tables i = .ended ↔ s.tables i = .ended) : Reported jobs s' := by
  refine ⟨?_, ?_, ?_⟩
  · rw [same]
    exact reported.once
  · intro i
    rw [same, reported.ended, tables]
  · rw [same]
    exact reported.named

theorem update_ended {j : Nat} (was : tables i ≠ .ended) (is : p ≠ .ended) :
    Function.update tables i p j = .ended ↔ tables j = .ended := by
  by_cases same : j = i
  · rw [same, Function.update_self]
    exact iff_of_false is was
  · rw [Function.update_of_ne same]

theorem tableResult_table (job : TableJob) (granted : Nat) (out : Outcome) :
    (tableResult job granted out).table = job.table := by
  cases out <;> rfl

/-- A table ends with its result. -/
theorem Reported.end_ {r : TableResult} (reported : Reported jobs s) (was : s.tables i ≠ .ended)
    (is : jobs[i]? = some job) (named : r.table = job.table) :
    Reported jobs ⟨sem, Function.update s.tables i .ended, s.results ++ [(i, r)]⟩ := by
  have fresh : i ∉ s.results.map Prod.fst := fun there => was ((reported.ended i).mp there)
  refine ⟨?_, ?_, ?_⟩
  · rw [List.map_append]
    exact reported.once.append (List.nodup_singleton i) (by simpa using fresh)
  · intro j
    rw [List.map_append, List.mem_append, reported.ended]
    dsimp only
    by_cases same : j = i
    · rw [same, Function.update_self]
      exact iff_of_true (.inr (List.mem_singleton_self i)) rfl
    · rw [Function.update_of_ne same]
      refine or_iff_left ?_
      intro last
      exact same (List.mem_singleton.mp last)
  · intro r' r'_mem
    rcases List.mem_append.mp r'_mem with old | new
    · exact reported.named r' old
    · obtain rfl := List.mem_singleton.mp new
      exact ⟨job, is, named⟩

/-! ## What a step keeps -/

/-- What every state of a run keeps. -/
structure Kept (jobs : List TableJob) (budget hand : Nat) (s : ManyRun) : Prop where
  sound : Sound jobs.length budget hand s.sem s.tables
  reported : Reported jobs s

theorem Kept.release (inv : Kept jobs budget (hand + k) s) : Kept jobs budget hand (s.release k) :=
  ⟨inv.sound.release, inv.reported.congr rfl fun _ => wakeAll_ended⟩

theorem Kept.dropped {ns : List Nat} (inv : Kept jobs budget ns.sum s) :
    Kept jobs budget 0 (ManyRun.dropped ns s) := by
  induction ns generalizing s with
  | nil => exact inv
  | cons n ns ih =>
      rw [List.sum_cons, Nat.add_comm] at inv
      exact ih inv.release

/-- A table that runs, with this grant. -/
def Phase.Holds (g : Grant) : Phase → Prop
  | .running _ g' | .resizing _ g' _ _ => g' = g
  | _ => False

theorem Phase.Holds.spec (holds : p.Holds g) : p.held = g.held.sum ∧ p ≠ .fresh ∧ p ≠ .ended ∧
    ∀ want, p ≠ .waiting want := by
  cases p with
  | running granted g' =>
      obtain rfl : g' = g := holds
      exact ⟨rfl, fun no => (by cases no), fun no => (by cases no), fun want no => (by cases no)⟩
  | resizing granted g' from_ target =>
      obtain rfl : g' = g := holds
      exact ⟨rfl, fun no => (by cases no), fun no => (by cases no), fun want no => (by cases no)⟩
  | _ => exact holds.elim

/-- A table that runs changes its grant, and the semaphore's free permits with it. -/
theorem Kept.set {free : Nat} {g' : Grant} (inv : Kept jobs budget 0 s)
    (holds : (s.tables i).Holds g)
    (then_ : p.Holds g') (kept : p.Kept budget) (le : free ≤ s.sem.free)
    (balance : free + g'.held.sum + hand = s.sem.free + g.held.sum) :
    Kept jobs budget hand ({ s with sem := { s.sem with free := free } }.set i p) := by
  obtain ⟨held, not_fresh, unended, unqueued⟩ := holds.spec
  obtain ⟨held', -, unended', unqueued'⟩ := then_.spec
  refine ⟨?_, inv.reported.congr rfl fun j => update_ended unended unended'⟩
  have place : p.place i = [] := by
    cases p with
    | waiting want => exact absurd rfl (unqueued' want)
    | _ => rfl
  refine inv.sound.update (inv.sound.within i not_fresh) unqueued (inv.sound.fair.fewer le) ?_ ?_
    kept
  · exact ((congrArg _ place).trans (List.append_nil _)).symm
  · rw [held, held']
    exact balance

theorem Kept.finish {granted : Nat} {out : Outcome} (inv : Kept jobs budget 0 s)
    (holds : (s.tables i).Holds g) (is : jobs[i]? = some job) :
    Kept jobs budget 0 (s.finish i job granted g out) := by
  obtain ⟨held, not_fresh, unended, unqueued⟩ := holds.spec
  apply Kept.dropped
  refine ⟨?_, inv.reported.end_ unended is (tableResult_table job granted out)⟩
  refine inv.sound.update (inv.sound.within i not_fresh) unqueued inv.sound.fair ?_ ?_ trivial
  · exact (List.append_nil _).symm
  · rw [held]
    rfl

/-- A table asks for at least a permit, and for no more than there are. -/
theorem Kept.ask (inv : Kept jobs budget 0 s) (within : i < jobs.length)
    (fresh : s.tables i = .fresh) (positive : 1 ≤ want) (le : want ≤ budget)
    (small : want < 2 ^ 32) : Kept jobs budget 0 (s.ask i want) := by
  have none : (s.tables i).held = 0 := by
    rw [fresh]
    rfl
  have unqueued : ∀ want, s.tables i ≠ .waiting want := by
    intro want
    rw [fresh]
    intro no
    cases no
  have unended : s.tables i ≠ .ended := by
    rw [fresh]
    intro no
    cases no
  have u32 := asU32_of_lt small
  rw [ManyRun.ask]
  rcases Semaphore.acquire_cases s.sem i (asU32 want) with ⟨enough, is⟩ | ⟨short, is⟩
  · rw [is]
    refine ⟨?_, inv.reported.congr rfl fun j => update_ended unended (fun no => by cases no)⟩
    apply inv.sound.update within unqueued (inv.sound.fair.fewer (Nat.sub_le _ _))
    · exact (List.append_nil _).symm
    · change s.sem.free - asU32 want + (asU32 want + 0) + 0 = s.sem.free + (s.tables i).held + 0
      omega
    · exact ⟨u32.symm, positive⟩
  · have fair := inv.sound.fair.acquire i (asU32 want)
    rw [is] at fair
    rw [is]
    refine ⟨?_, inv.reported.congr rfl fun j => update_ended unended (fun no => by cases no)⟩
    apply inv.sound.update within unqueued fair
    · rw [u32]
      rfl
    · rw [none]
      rfl
    · exact ⟨positive, le, small⟩

/-- What a turn of a resize does: it gives back some of the excess, takes a permit where there
are too few, or leaves the grant at its target or with no permit to take. -/
theorem Grant.turn_cases (whole : g.Whole) {target : Nat} (positive : 1 ≤ target)
    (sem : Semaphore Nat) :
    (∃ n g', g.turn sem target = .released n g' ∧ g'.Whole ∧ g'.held.sum + n = g.held.sum ∧
      target < g.count ∧ target ≤ g'.count) ∨
    (∃ sem', g.turn sem target = .grew sem' ⟨g.held ++ [1], g.count + 1⟩ ∧
      sem.tryAcquire = some sem' ∧ g.count < target) ∨
    (g.turn sem target = .done ∧ g.count ≤ target ∧
      (g.count < target → sem.tryAcquire = none)) := by
  obtain ⟨count, some_⟩ := whole
  rw [Grant.turn]
  by_cases excess : target < g.count
  · rw [if_pos excess]
    dsimp only
    have holds : g.held ≠ [] := by
      intro none
      rw [none, List.sum_nil] at count
      omega
    obtain ⟨n, last⟩ := List.getLast?_isSome.mpr holds |> Option.isSome_iff_exists.mp
    have front : g.held = g.held.dropLast ++ [n] := (List.dropLast_append_getLast? n last).symm
    have total : g.held.sum = g.held.dropLast.sum + n := by
      conv_lhs => rw [front]
      rw [List.sum_append, List.sum_singleton]
    rw [last]
    dsimp only
    by_cases all : n ≤ g.count - target
    · rw [if_pos all]
      refine .inl ⟨n, _, rfl, ⟨?_, ?_⟩, total.symm, excess, ?_⟩
      · dsimp only
        omega
      · dsimp only
        omega
      · dsimp only
        omega
    · rw [if_neg all]
      have part : (g.held.dropLast ++ [n - (g.count - target)]).sum =
          g.held.dropLast.sum + (n - (g.count - target)) := by
        rw [List.sum_append, List.sum_singleton]
      refine .inl ⟨g.count - target, _, rfl, ⟨?_, ?_⟩, ?_, excess, ?_⟩
      · dsimp only
        omega
      · dsimp only
        omega
      · dsimp only
        omega
      · dsimp only
        omega
  · rw [if_neg excess]
    by_cases lacks : g.count < target
    · rw [if_pos lacks]
      cases got : sem.tryAcquire with
      | some sem' => exact .inr (.inl ⟨sem', rfl, rfl, lacks⟩)
      | none => exact .inr (.inr ⟨rfl, lacks.le, fun _ => rfl⟩)
    · rw [if_neg lacks]
      exact .inr (.inr ⟨rfl, Nat.not_lt.mp excess, fun no => absurd no lacks⟩)

/-- A turn keeps what there is, and the resize between its start and its target. -/
theorem Kept.turned {granted from_ target : Nat} (inv : Kept jobs budget 0 s)
    (phase : s.tables i = .resizing granted g from_ target) :
    Kept jobs budget 0 (s.turned i job granted from_ target g (g.turn s.sem target)) := by
  have holds : (s.tables i).Holds g := by
    rw [phase]
    rfl
  have kept := inv.sound.kept i
  rw [phase] at kept
  obtain ⟨whole, between, positive⟩ := kept
  rcases Grant.turn_cases whole positive s.sem with
    ⟨n, g', turn, whole', sum, excess, reaches⟩ | ⟨sem', turn, got, lacks⟩ | ⟨turn, -, -⟩
  · rw [turn]
    have less : g'.count ≤ g.count := by
      rw [whole.count, whole'.count]
      omega
    have between' : g'.Between from_ target := by
      refine ⟨fun shrinks => ⟨reaches, less.trans (between.shrinks shrinks).2⟩, fun grows => ?_⟩
      exact absurd (between.grows grows).2 (Nat.not_le.mpr excess)
    have balance : s.sem.free + g'.held.sum + n = s.sem.free + g.held.sum := by omega
    have hand : Kept jobs budget n (s.set i (.resizing granted g' from_ target)) :=
      inv.set holds rfl ⟨whole', between', positive⟩ le_rfl balance
    rw [← Nat.zero_add n] at hand
    exact hand.release
  · rw [turn]
    obtain ⟨-, some_, rfl⟩ := Semaphore.tryAcquire_some got
    have sum : (g.held ++ [1]).sum = g.held.sum + 1 := by
      rw [List.sum_append, List.sum_singleton]
    have whole' : Grant.Whole ⟨g.held ++ [1], g.count + 1⟩ :=
      ⟨by rw [sum, whole.count], Nat.le_add_left 1 _⟩
    have between' : Grant.Between ⟨g.held ++ [1], g.count + 1⟩ from_ target := by
      refine ⟨fun shrinks => ?_, fun grows => ⟨?_, lacks⟩⟩
      · exact absurd (between.shrinks shrinks).1 (Nat.not_le.mpr lacks)
      · exact (between.grows grows).1.trans (Nat.le_succ _)
    have balance : s.sem.free - 1 + (g.held ++ [1]).sum + 0 = s.sem.free + g.held.sum := by omega
    exact inv.set holds rfl ⟨whole', between', positive⟩ (Nat.sub_le _ 1) balance
  · rw [turn]
    exact inv.set holds rfl whole le_rfl rfl

theorem desiredPipes_bounds (estRows : Int) (cap : Nat) (positive : 1 ≤ budget) :
    1 ≤ desiredPipes estRows budget cap ∧ desiredPipes estRows budget cap ≤ budget := by
  rw [desiredPipes]
  split <;> omega

/-- Asks that are counted for what they are. -/
def Fits (jobs : List TableJob) (budget cap : Nat) : Prop :=
  ∀ job ∈ jobs, desiredPipes job.estRows budget cap < 2 ^ 32

theorem Kept.step (inv : Kept jobs budget 0 s) (positive : 1 ≤ budget)
    (fits : Fits jobs budget cap) (step : ManyRun.Step jobs budget cap s s') :
    Kept jobs budget 0 s' := by
  cases step with
  | @begin_ i job is fresh =>
      obtain ⟨some_, le⟩ := desiredPipes_bounds job.estRows cap positive
      have within := (List.getElem?_eq_some_iff.mp is).1
      exact inv.ask within fresh some_ le (fits job (List.mem_of_getElem? is))
  | @resize i granted g target runs =>
      have holds : (s.tables i).Holds g := by
        rw [runs]
        rfl
      have whole := inv.sound.kept i
      rw [runs] at whole
      have between : g.Between g.count (max target 1) :=
        ⟨fun le => ⟨le, le_rfl⟩, fun le => ⟨le_rfl, le⟩⟩
      exact inv.set holds rfl ⟨whole, between, Nat.le_max_right _ _⟩ le_rfl rfl
  | turn is within => exact inv.turned within
  | @finish i granted job g out is runs =>
      have holds : (s.tables i).Holds g := by
        rw [runs]
        rfl
      exact inv.finish holds is

theorem start_kept (jobs : List TableJob) {budget : Nat} (started : ManyRun.start budget = some s) :
    Kept jobs budget 0 s := by
  rw [ManyRun.start] at started
  split at started
  · cases started
  · obtain rfl := Option.some.inj started
    refine ⟨⟨?_, ?_, ⟨List.nodup_nil, ?_⟩, ?_, fun i => trivial, ?_⟩, List.nodup_nil, ?_, ?_⟩
    · intro w no
      cases no
    · have none : heldBy jobs.length (fun _ => Phase.fresh) = 0 := Finset.sum_const_zero
      rw [none]
      rfl
    · intro w no
      cases no
    · intro i want no
      cases no
    · intro i no
      exact absurd rfl no
    · exact fun i => iff_of_false (fun no => by cases no) (fun no => by cases no)
    · intro r no
      cases no

theorem reaches_kept {s₀ : ManyRun} (positive : 1 ≤ budget) (fits : Fits jobs budget cap)
    (inv : Kept jobs budget 0 s₀)
    (run : Relation.ReflTransGen (ManyRun.Step jobs budget cap) s₀ s) : Kept jobs budget 0 s := by
  induction run with
  | refl => exact inv
  | tail _ step ih => exact ih.step positive fits step

/-! ## The end of a resize -/

theorem dropped_calm {ns : List Nat} (calm : p.wake = p) (is : s.tables i = p) :
    (ManyRun.dropped ns s).tables i = p := by
  induction ns generalizing s with
  | nil => exact is
  | cons n ns ih => exact ih (wakeAll_calm calm is)

/-- A resize ends by its own turn, with the grant at its target or below one it grows to. -/
theorem Kept.resized {granted granted' from_ target : Nat} {g' : Grant}
    (inv : Kept jobs budget 0 s) (step : ManyRun.Step jobs budget cap s s')
    (phase : s.tables i = .resizing granted g from_ target)
    (ended : s'.tables i = .running granted' g') :
    (target ≤ from_ → g'.count = target) ∧
      (from_ ≤ target → from_ ≤ g'.count ∧ g'.count ≤ target) := by
  have calm : (Phase.resizing granted g from_ target).wake = .resizing granted g from_ target := rfl
  have other {j : Nat} {q : Phase} (ne : i ≠ j) :
      Function.update s.tables j q i = .resizing granted g from_ target := by
    rw [Function.update_of_ne ne, phase]
  cases step with
  | @begin_ j job is fresh =>
      have ne : i ≠ j := by
        rintro rfl
        cases phase.symm.trans fresh
      cases (other ne).symm.trans ended
  | @resize j granted g target runs =>
      have ne : i ≠ j := by
        rintro rfl
        cases phase.symm.trans runs
      cases (other ne).symm.trans ended
  | @finish j granted job g out is runs =>
      have ne : i ≠ j := by
        rintro rfl
        cases phase.symm.trans runs
      cases (dropped_calm calm (other ne)).symm.trans ended
  | @turn j granted₂ from₂ target₂ job g₂ is within =>
      have kept := inv.sound.kept j
      rw [within] at kept
      obtain ⟨whole, between, positive⟩ := kept
      rcases Grant.turn_cases whole positive s.sem with
        ⟨n, g₃, turn, -⟩ | ⟨sem', turn, -⟩ | ⟨turn, le, -⟩
      · rw [turn] at ended
        by_cases same : i = j
        · subst same
          have here : (s.set i (.resizing granted₂ g₃ from₂ target₂)).tables i =
              .resizing granted₂ g₃ from₂ target₂ := Function.update_self _ _ _
          cases (wakeAll_calm rfl here).symm.trans ended
        · cases (wakeAll_calm calm (other same)).symm.trans ended
      · rw [turn] at ended
        by_cases same : i = j
        · subst same
          cases (Function.update_self i _ s.tables).symm.trans ended
        · cases (other same).symm.trans ended
      · rw [turn] at ended
        by_cases same : i = j
        · subst same
          cases phase.symm.trans within
          cases (Function.update_self i _ s.tables).symm.trans ended
          refine ⟨fun shrinks => ?_, fun grows => ⟨(between.grows grows).1, le⟩⟩
          exact le_antisymm le (between.shrinks shrinks).1
        · cases (other same).symm.trans ended

/-! ## Every state of every run -/

theorem exists_holds (some_ : 0 < p.held) : ∃ g, p.Holds g := by
  cases p with
  | running granted g => exact ⟨g, rfl⟩
  | resizing granted g from_ target => exact ⟨g, rfl⟩
  | _ => exact absurd some_ (Nat.lt_irrefl 0)

/-- While a table waits another one runs. -/
theorem Kept.served (inv : Kept jobs budget 0 s) (waits : s.tables i = .waiting want) :
    ∃ j, j ≠ i ∧ ∃ g, (s.tables j).Holds g := by
  have queue := inv.sound.inQueue i want waits
  obtain ⟨w, w_mem, short⟩ := inv.sound.fair.short (List.ne_nil_of_mem queue)
  have le : w.2 ≤ budget := by
    have kept := inv.sound.kept w.1
    rw [(inv.sound.queued.waits w w_mem).2.1] at kept
    exact kept.2.1
  have ledger := inv.sound.ledger
  have some_ : heldBy jobs.length s.tables ≠ 0 := by omega
  obtain ⟨j, -, held⟩ := Finset.exists_ne_zero_of_sum_ne_zero some_
  obtain ⟨g, holds⟩ := exists_holds (Nat.pos_of_ne_zero held)
  refine ⟨j, ?_, g, holds⟩
  rintro rfl
  rw [waits] at holds
  exact holds

/-- Every table has its result, and every permit is back. -/
theorem Kept.returned (inv : Kept jobs budget 0 s) (all : s.Returned jobs) :
    (s.results.map Prod.fst).Perm (List.range jobs.length) ∧
      (s.results.map fun r => r.2.table).Perm (jobs.map TableJob.table) ∧ s.sem.free = budget := by
  have places : (s.results.map Prod.fst).Perm (List.range jobs.length) := by
    rw [List.perm_ext_iff_of_nodup inv.reported.once List.nodup_range]
    intro i
    rw [inv.reported.ended, List.mem_range]
    constructor
    · intro ended
      apply inv.sound.within
      rw [ended]
      intro no
      cases no
    · exact all i
  refine ⟨places, ?_, ?_⟩
  · let name := fun i : Nat => (jobs[i]?.map TableJob.table).getD ""
    have named : (s.results.map fun r => r.2.table) = (s.results.map Prod.fst).map name := by
      rw [List.map_map]
      apply List.map_congr_left
      intro r r_mem
      obtain ⟨job, is, table⟩ := inv.reported.named r r_mem
      change r.2.table = (jobs[r.1]?.map TableJob.table).getD ""
      rw [is, table]
      rfl
    have names : (List.range jobs.length).map name = jobs.map TableJob.table := by
      apply List.ext_getElem
      · simp
      · intro i _ within
        rw [List.length_map] at within
        simp [name, List.getElem?_eq_getElem within]
    rw [named, ← names]
    exact places.map name
  · have none : heldBy jobs.length s.tables = 0 := by
      apply Finset.sum_eq_zero
      intro i i_mem
      rw [all i (Finset.mem_range.mp i_mem)]
      rfl
    have ledger := inv.sound.ledger
    omega

/-- What the budget's account comes to in a state of a run. -/
structure Conserved (jobs : List TableJob) (budget cap : Nat) (s : ManyRun) : Prop where
  permits : s.sem.free + heldBy jobs.length s.tables = budget
  counts : ∀ i g, (s.tables i).Holds g → g.count = g.held.sum ∧ 1 ≤ g.count
  asks : ∀ i want, s.tables i = .waiting want → want ≤ budget
  served : ∀ i want, s.tables i = .waiting want → ∃ j, j ≠ i ∧ ∃ g, (s.tables j).Holds g
  resizes : ∀ i granted g from_ target, s.tables i = .resizing granted g from_ target →
    g.Between from_ target ∧ g.turn s.sem target ≠ .panicked
  resized : ∀ s' i granted granted' g g' from_ target,
    ManyRun.Step (ManyRun.largestFirst jobs) budget cap s s' →
    s.tables i = .resizing granted g from_ target → s'.tables i = .running granted' g' →
    (target ≤ from_ → g'.count = target) ∧
      (from_ ≤ target → from_ ≤ g'.count ∧ g'.count ≤ target)
  returned : s.Returned jobs → (s.results.map Prod.fst).Perm (List.range jobs.length) ∧
    (s.results.map fun r => r.2.table).Perm (jobs.map TableJob.table) ∧ s.sem.free = budget

/-- No table asks for more than the budget, and its account is right in every state. -/
def Conserves (jobs : List TableJob) (budget cap : Nat) : Prop :=
  (∀ job ∈ jobs, desiredPipes job.estRows budget cap ≤ budget) ∧
    ∀ s₀ s, ManyRun.start budget = some s₀ → ManyRun.Reaches jobs budget cap s₀ s →
      Conserved jobs budget cap s

theorem mem_largestFirst : job ∈ ManyRun.largestFirst jobs ↔ job ∈ jobs :=
  (List.mergeSort_perm jobs _).mem_iff

theorem Kept.conserved (inv : Kept (ManyRun.largestFirst jobs) budget 0 s) :
    Conserved jobs budget cap s := by
  have perm : (ManyRun.largestFirst jobs).Perm jobs := List.mergeSort_perm jobs _
  have length := perm.length_eq
  refine ⟨?_, ?_, ?_, ?_, ?_, ?_, ?_⟩
  · rw [← length]
    exact inv.sound.ledger
  · intro i g holds
    have kept := inv.sound.kept i
    cases phase : s.tables i with
    | running granted g' =>
        rw [phase] at holds kept
        obtain rfl : g' = g := holds
        exact ⟨kept.count, kept.positive⟩
    | resizing granted g' from_ target =>
        rw [phase] at holds kept
        obtain rfl : g' = g := holds
        exact ⟨kept.1.count, kept.1.positive⟩
    | _ =>
        rw [phase] at holds
        exact holds.elim
  · intro i want waits
    have kept := inv.sound.kept i
    rw [waits] at kept
    exact kept.2.1
  · intro i want waits
    exact inv.served waits
  · intro i granted g from_ target phase
    have kept := inv.sound.kept i
    rw [phase] at kept
    obtain ⟨whole, between, positive⟩ := kept
    refine ⟨between, ?_⟩
    rcases Grant.turn_cases whole positive s.sem with ⟨n, g', turn, -⟩ | ⟨sem', turn, -⟩ | ⟨turn, -⟩
    all_goals
      rw [turn]
      intro no
      cases no
  · intro s' i granted granted' g g' from_ target step phase ended
    exact inv.resized step phase ended
  · intro all
    have all' : s.Returned (ManyRun.largestFirst jobs) := fun i within => all i (length ▸ within)
    obtain ⟨places, names, free⟩ := inv.returned all'
    rw [length] at places
    exact ⟨places, names.trans (perm.map _), free⟩

/-- An ask of 2³² pipes or more is counted for more than it got. -/
theorem Conserves.fits (conserves : Conserves jobs budget cap) (room : budget ≤ maxPermits) :
    Fits jobs budget cap := by
  intro job job_mem
  by_contra large
  obtain ⟨i, is⟩ := List.getElem?_of_mem (mem_largestFirst.mpr job_mem)
  generalize wants : desiredPipes job.estRows budget cap = want at large
  have le : want ≤ budget := wants ▸ conserves.1 job job_mem
  obtain ⟨s₀, s₀_is⟩ : ∃ s₀ : ManyRun, s₀ = ⟨.new budget, fun _ => .fresh, []⟩ := ⟨_, rfl⟩
  have started : ManyRun.start budget = some s₀ := by
    rw [s₀_is]
    exact if_neg (Nat.not_lt.mpr room)
  have fresh : s₀.tables i = .fresh := by
    rw [s₀_is]
  have first : ManyRun.Step (ManyRun.largestFirst jobs) budget cap s₀ (s₀.ask i want) :=
    wants ▸ .begin_ is fresh
  have conserved := conserves.2 _ _ started (.single first)
  have less : asU32 want < 2 ^ 32 := Nat.mod_lt _ (Nat.two_pow_pos 32)
  have holds : ((s₀.ask i want).tables i).Holds ⟨[asU32 want], want⟩ := by
    rw [ManyRun.ask]
    rcases Semaphore.acquire_cases s₀.sem i (asU32 want) with ⟨-, got⟩ | ⟨short, -⟩
    · rw [got]
      dsimp only
      rw [Function.update_self]
      rfl
    · rw [s₀_is] at short
      have few : budget < asU32 want := short rfl
      omega
  have count : want = asU32 want := (conserved.counts i _ holds).1
  omega

/-- The budget is conserved exactly where no table asks for 2³² pipes or more. -/
theorem budget_conserved_iff (jobs : List TableJob) (cap : Nat) (positive : 1 ≤ budget) :
    Conserves jobs budget cap ↔ (budget ≤ maxPermits → Fits jobs budget cap) := by
  constructor
  · exact Conserves.fits
  · intro fits
    refine ⟨fun job _ => (desiredPipes_bounds job.estRows cap positive).2, ?_⟩
    intro s₀ s started run
    have room : budget ≤ maxPermits := by
      rw [ManyRun.start] at started
      split at started
      · cases started
      · rename_i room
        exact Nat.not_lt.mp room
    have fits' : Fits (ManyRun.largestFirst jobs) budget cap := fun job job_mem =>
      fits room job (mem_largestFirst.mp job_mem)
    exact (reaches_kept positive fits' (start_kept _ started) run).conserved

/-- Three tables, one of them of an unknown size, through eight pipes. -/
theorem eight_pipes_conserved :
    Conserves [⟨"orders", -1⟩, ⟨"items", 1000000⟩, ⟨"flags", 12⟩] 8 (2 ^ 64 - 1) := by
  apply (budget_conserved_iff _ _ (by decide)).mpr
  intro _ job _
  exact Nat.lt_of_le_of_lt (desiredPipes_bounds _ _ (by decide)).2 (by decide)

/-- A table of an unknown size and a budget of 2³² pipes. -/
theorem wide_ask_not_conserved : ¬ Conserves [⟨"orders", -1⟩] (2 ^ 32) (2 ^ 64 - 1) := by
  intro conserves
  have fits := conserves.fits (by decide) ⟨"orders", -1⟩ List.mem_cons_self
  have all : desiredPipes (-1) (2 ^ 32) (2 ^ 64 - 1) = 2 ^ 32 := by decide
  rw [all] at fits
  exact Nat.lt_irrefl _ fits

end Apitap.Pipeline
