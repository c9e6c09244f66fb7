import Mathlib.Data.List.Pairwise
import Apitap.Logbased.ApplyWindows

/-!
# What the slot is told

Whatever the order of the two loops, and whatever fails, the watch never runs ahead of a member's
durable watermark: a window is completed only when every member has its mark or is past it, and
windows are completed in the order they were sent, also by the arm that lands them out of order.
So no LSN a standby status carries lies past what a member has, and the marks a member committed
are those of the first windows it did not skip.
-/

namespace Apitap.Slot

variable {G : Group} {s s' : State G} {k r : Nat}

/-! ## What is durable -/

/-- Of the windows sent, `k` are completed; a member has a mark more where the next one's is
durable already. -/
structure Kept (G : Group) (applied cur reported : Nat) (sent : List Window) (reports : List Nat)
    (stored : Fin G.members → Nat) (commits : Fin G.members → List Nat)
    (batch : Option (Batch G.members)) (k : Nat) : Prop where
  order : sent.Pairwise fun v w => v.endLsn < w.endLsn
  upto : ∀ w ∈ sent, w.endLsn ≤ cur
  applied_le : applied ≤ cur
  ahead : ∀ w ∈ sent.drop k, applied < w.endLsn
  below : ∀ i, applied ≤ stored i
  floors : G.dest ≠ .bq → ∀ i, G.floors i ≤ stored i
  reports : ∀ lsn ∈ reports, lsn ≤ applied
  reported : reported ≤ applied
  commits : ∀ i, commits i =
    marksOf G i (sent.take (if batch.any fun b => i ∈ b.landed then k + 1 else k))
  batch : ∀ b, batch = some b → sent[k]? = some b.window ∧ (∀ i ∈ b.asked, takes G b.window i) ∧
    b.landed ⊆ b.asked ∧ ∀ i ∈ b.landed, stored i = b.window.endLsn

/-- The windows the parallel arm has begun and not closed, counted from its first. -/
structure Books (p : Parallel) (sent : List Window) (base first : Nat) : Prop where
  done : ∀ d ∈ p.done, d.1 < p.seq ∧ sent[base + d.1]? = some d.2
  inflight : ∀ f ∈ p.inflight, f.id < p.seq ∧ sent[base + f.id]? = some f.window
  held : ∀ w, p.mode = .hold w → sent[base + p.seq]? = some w
  covered : ∀ id, first ≤ id → id < p.seq →
    (∃ w, (id, w) ∈ p.done) ∨ ∃ f ∈ p.inflight, f.id = id

/-- A window that is received and not begun. -/
def Mode.held : Mode → Nat
  | .hold _ => 1
  | _ => 0

/-- Where the applies are, with `k` windows completed and `r` received. -/
def AtOk (G : Group) (sent : List Window) (batch : Option (Batch G.members)) (k r : Nat) :
    ApplyAt G.members → Prop
  | .recv => r = k ∧ batch = none
  | .own _ w turns => r = k + 1 ∧ G.dest ≠ .bq ∧ ∃ b, batch = some b ∧ b.window = w ∧
      (∀ i, turns i = .applying → takes G w i) ∧
        ∀ i, turns i = .done → i ∈ b.landed ∨ ¬ takes G w i
  | .group _ w _ => r = k + 1 ∧ batch = none ∧ sent[k]? = some w
  | .staging w => r = k + 1 ∧ batch = none ∧ sent[k]? = some w ∧ G.dest = .bq
  | .closing w failed => r = k + 1 ∧ ∃ b, batch = some b ∧ b.window = w ∧
      (failed = false → ∀ i, takes G w i → i ∈ b.asked)
  | .parallel p => batch = none ∧ ∃ base, k = base + p.expected ∧
      r = base + p.seq + p.mode.held ∧ Books p sent base p.expected ∧
        (p.settling = false → ∀ d ∈ p.done, d.1 ≠ p.expected)
  | .prefixClosing p w => (∃ b, batch = some b ∧ b.window = w ∧ ∀ i, takes G w i → i ∈ b.asked) ∧
      ∃ base, k = base + p.expected ∧ p.expected < p.seq ∧
        r = base + p.seq + p.mode.held ∧ Books p sent base (p.expected + 1) ∧ p.settling = true
  | .ended => True

structure Inv (s : State G) (k r : Nat) : Prop where
  kept : Kept G s.applied s.cur s.reported s.sent s.reports s.stored s.commits s.batch k
  completed : k ≤ r
  received : r ≤ s.sent.length
  queue : s.queue = s.sent.drop r
  at_ : AtOk G s.sent s.batch k r s.apply

theorem inv_start : Inv (State.start G) 0 0 := by
  refine ⟨⟨.nil, ?_, Nat.le_refl _, ?_, ?_, ?_, ?_, Nat.zero_le _, fun _ => rfl, ?_⟩,
    Nat.le_refl 0, Nat.le_refl 0, rfl, rfl, rfl⟩
  · intro w mem
    cases mem
  · intro w mem
    cases mem
  · intro i
    exact G.lowest.2 ⟨i, rfl⟩
  · intro _ i
    exact Nat.le_refl _
  · intro lsn mem
    cases mem
  · intro b none
    cases none

/-! ## The drain's steps -/

theorem getElem?_snoc {sent : List Window} {w v : Window} {i : Nat} (here : sent[i]? = some w) :
    (sent ++ [v])[i]? = some w := by
  rw [List.getElem?_append_left (List.getElem?_eq_some_iff.mp here).1]
  exact here

theorem Books.send {p : Parallel} {sent : List Window} {base first : Nat} {v : Window}
    (books : Books p sent base first) : Books p (sent ++ [v]) base first := by
  refine ⟨?_, ?_, ?_, books.covered⟩
  · intro d mem
    exact ⟨(books.done d mem).1, getElem?_snoc (books.done d mem).2⟩
  · intro f mem
    exact ⟨(books.inflight f mem).1, getElem?_snoc (books.inflight f mem).2⟩
  · intro w is
    exact getElem?_snoc (books.held w is)

theorem AtOk.send {sent : List Window} {batch : Option (Batch G.members)}
    {a : ApplyAt G.members} {v : Window} (ok : AtOk G sent batch k r a) :
    AtOk G (sent ++ [v]) batch k r a := by
  cases a with
  | group pool w turns => exact ⟨ok.1, ok.2.1, getElem?_snoc ok.2.2⟩
  | staging w => exact ⟨ok.1, ok.2.1, getElem?_snoc ok.2.2.1, ok.2.2.2⟩
  | parallel p =>
      obtain ⟨none, base, is, from_, books, gap⟩ := ok
      exact ⟨none, base, is, from_, books.send, gap⟩
  | prefixClosing p w =>
      obtain ⟨batch, base, is, begun, from_, books, settling⟩ := ok
      exact ⟨batch, base, is, begun, from_, books.send, settling⟩
  | _ => exact ok

/-- A window past all others goes down the channel. -/
theorem Inv.send (inv : Inv s k r) {w : Window} (on : s.cur < w.endLsn) :
    Inv { s with sent := s.sent ++ [w], queue := s.queue ++ [w], cur := w.endLsn } k r := by
  have kept := inv.kept
  have known : k ≤ s.sent.length := Nat.le_trans inv.completed inv.received
  refine ⟨⟨?_, ?_, ?_, ?_, kept.below, kept.floors, kept.reports, kept.reported, ?_, ?_⟩,
    inv.completed, ?_, ?_, inv.at_.send⟩
  · rw [List.pairwise_append]
    refine ⟨kept.order, List.pairwise_singleton _ _, ?_⟩
    intro v v_mem w' w_mem
    rw [List.mem_singleton] at w_mem
    exact w_mem ▸ lt_of_le_of_lt (kept.upto v v_mem) on
  · intro v v_mem
    obtain mem | mem := List.mem_append.mp v_mem
    · exact Nat.le_of_lt (lt_of_le_of_lt (kept.upto v mem) on)
    · rw [List.mem_singleton.mp mem]
  · exact Nat.le_of_lt (lt_of_le_of_lt kept.applied_le on)
  · intro v v_mem
    rw [List.drop_append_of_le_length known] at v_mem
    obtain mem | mem := List.mem_append.mp v_mem
    · exact kept.ahead v mem
    · rw [List.mem_singleton.mp mem]
      exact lt_of_le_of_lt kept.applied_le on
  · intro i
    have commits := kept.commits i
    dsimp only
    rw [commits]
    split
    · rename_i landed
      obtain ⟨b, is, -⟩ := Option.any_eq_true _ _ |>.mp landed
      have within := (List.getElem?_eq_some_iff.mp (kept.batch b is).1).1
      rw [List.take_append_of_le_length within]
    · rw [List.take_append_of_le_length known]
  · intro b is
    obtain ⟨here, marks⟩ := kept.batch b is
    exact ⟨getElem?_snoc here, marks⟩
  · rw [List.length_append]
    exact Nat.le_trans inv.received (Nat.le_add_right _ _)
  · dsimp only
    rw [inv.queue, List.drop_append_of_le_length inv.received]

/-- What is reported is at most what is applied. -/
theorem Inv.report (inv : Inv s k r) {lsn : Nat} (le : lsn ≤ s.applied) :
    Inv (s.report lsn) k r := by
  have kept := inv.kept
  refine ⟨⟨kept.order, kept.upto, kept.applied_le, kept.ahead, kept.below, kept.floors, ?_, le,
    kept.commits, kept.batch⟩, inv.completed, inv.received, inv.queue, inv.at_⟩
  intro l mem
  obtain old | new := List.mem_append.mp mem
  · exact kept.reports l old
  · exact List.mem_singleton.mp new ▸ le

/-- Where the drain is, and what it has pending, is its own affair. -/
theorem Inv.drainAt (inv : Inv s k r) (d : DrainAt) (pending : List Nat) :
    Inv { s with drain := d, pending := pending } k r :=
  ⟨inv.kept, inv.completed, inv.received, inv.queue, inv.at_⟩

theorem Inv.drain (inv : Inv s k r) (step : DrainStep s s') : Inv s' k r := by
  cases step with
  | answer | tick => exact inv.report (Nat.le_refl _)
  | ask => exact inv.report inv.kept.reported
  | send at_ alive room on => exact (inv.send on).drainAt _ _
  | confirm _ landed => exact (inv.report landed).drainAt _ _
  | unconfirmed _ landed => exact (inv.report landed).drainAt _ _
  | _ => exact inv.drainAt _ _

/-! ## A mark lands -/

theorem marksOf_succ {i : Fin G.members} {sent : List Window} {w : Window}
    (here : sent[k]? = some w) :
    marksOf G i (sent.take (k + 1)) =
      marksOf G i (sent.take k) ++ if takes G w i then [w.endLsn] else [] := by
  rw [List.take_add_one, here, Option.toList_some, marksOf, marksOf, List.filter_append,
    List.map_append]
  by_cases mine : takes G w i
  · rw [if_pos mine, List.filter_singleton, decide_eq_true mine]
    rfl
  · rw [if_neg mine, List.filter_singleton, decide_eq_false mine]
    rfl

theorem mem_drop {sent : List Window} {w : Window} (here : sent[k]? = some w) :
    w ∈ sent.drop k := by
  apply List.mem_of_getElem? (i := 0)
  rw [List.getElem?_drop]
  exact here

theorem AtOk.land {sent : List Window} {b : Batch G.members} {a : ApplyAt G.members}
    {landed : Finset (Fin G.members)} (more : b.landed ⊆ landed)
    (ok : AtOk G sent (some b) k r a) : AtOk G sent (some { b with landed := landed }) k r a := by
  cases a with
  | recv => cases ok.2
  | own pool w turns =>
      obtain ⟨received, other, b', same, is, applying, done⟩ := ok
      cases same
      refine ⟨received, other, _, rfl, is, applying, ?_⟩
      intro i at_
      exact (done i at_).imp_left fun mem => more mem
  | group pool w turns => cases ok.2.1
  | staging w => cases ok.2.1
  | closing w failed =>
      obtain ⟨received, b', same, is, asked⟩ := ok
      cases same
      exact ⟨received, _, rfl, is, asked⟩
  | parallel p => cases ok.1
  | prefixClosing p w =>
      obtain ⟨⟨b', same, is, asked⟩, books⟩ := ok
      cases same
      exact ⟨⟨_, rfl, is, asked⟩, books⟩
  | ended => trivial

theorem Inv.land (inv : Inv s k r) {b : Batch G.members} {i : Fin G.members}
    (batch : s.batch = some b) (asked : i ∈ b.asked) (fresh : i ∉ b.landed) :
    Inv (s.land b i) k r := by
  have kept := inv.kept
  obtain ⟨here, takers, subset, stored⟩ := kept.batch b batch
  have past : s.applied < b.window.endLsn := kept.ahead _ (mem_drop here)
  have more : b.landed ⊆ insert i b.landed := Finset.subset_insert _ _
  refine ⟨⟨kept.order, kept.upto, kept.applied_le, kept.ahead, ?_, ?_, kept.reports,
    kept.reported, ?_, ?_⟩, inv.completed, inv.received, inv.queue, ?_⟩
  · intro j
    rw [State.land_stored]
    split
    · exact Nat.le_of_lt past
    · exact kept.below j
  · intro other j
    rw [State.land_stored]
    split
    · rename_i same
      have under : G.floors i < b.window.endLsn := (takers i asked).resolve_left other
      exact same ▸ Nat.le_of_lt under
    · exact kept.floors other j
  · intro j
    have before := kept.commits j
    have now : (s.land b i).batch = some { b with landed := insert i b.landed } := rfl
    rw [batch, Option.any_some] at before
    rw [State.land_commits, now, Option.any_some]
    by_cases same : j = i
    · subst same
      have mine : decide (j ∈ insert j b.landed) = true :=
        decide_eq_true (Finset.mem_insert_self ..)
      rw [decide_eq_false fresh, if_neg Bool.false_ne_true] at before
      rw [if_pos rfl, if_pos mine, before]
      exact (marksOf_succ here).symm ▸ (if_pos (takers j asked)).symm ▸ rfl
    · have alike : decide (j ∈ insert i b.landed) = decide (j ∈ b.landed) := by
        simp [same]
      rw [if_neg same, alike, before]
      rfl
  · intro b' is
    cases is
    refine ⟨here, takers, ?_, ?_⟩
    · exact Finset.insert_subset asked subset
    · intro j mem
      rw [State.land_stored]
      split
      · rfl
      · rename_i other
        exact stored j ((Finset.mem_insert.mp mem).resolve_left other)
  · have at_ := inv.at_
    rw [batch] at at_
    exact at_.land more

/-! ## A window is completed -/

theorem State.publish_cases (s : State G) (lsn : Nat) :
    s.publish lsn = s.applied ∨ s.publish lsn = lsn := by
  rw [State.publish]
  split
  · exact .inl rfl
  · exact .inr rfl

/-- Where every member has its mark or is past the window, the watch may say so. -/
theorem Inv.complete (inv : Inv s k r) {b : Batch G.members} (batch : s.batch = some b)
    (all : ∀ i, takes G b.window i → i ∈ b.landed) :
    Kept G (s.publish b.window.endLsn) s.cur s.reported s.sent s.reports s.stored s.commits none
      (k + 1) ∧ s.applied ≤ s.publish b.window.endLsn := by
  have kept := inv.kept
  obtain ⟨here, takers, subset, stored⟩ := kept.batch b batch
  have past : s.applied < b.window.endLsn := kept.ahead _ (mem_drop here)
  have up : s.applied ≤ s.publish b.window.endLsn := by
    cases s.publish_cases b.window.endLsn with
    | inl same => exact Nat.le_of_eq same.symm
    | inr new =>
        rw [new]
        exact Nat.le_of_lt past
  have down : s.publish b.window.endLsn ≤ b.window.endLsn := by
    cases s.publish_cases b.window.endLsn with
    | inl same =>
        rw [same]
        exact Nat.le_of_lt past
    | inr new => exact Nat.le_of_eq new
  have behind : ∀ v ∈ s.sent.drop (k + 1), b.window.endLsn < v.endLsn := by
    intro v mem
    have order := kept.order.drop (i := k)
    have split : s.sent.drop k = b.window :: s.sent.drop (k + 1) := by
      obtain ⟨within, is⟩ := List.getElem?_eq_some_iff.mp here
      rw [List.drop_eq_getElem_cons within, is]
    rw [split] at order
    exact List.rel_of_pairwise_cons order mem
  refine ⟨⟨kept.order, kept.upto, ?_, ?_, ?_, kept.floors, ?_, ?_, ?_, ?_⟩, up⟩
  · exact Nat.le_trans down (kept.upto _ (List.mem_of_getElem? here))
  · intro v mem
    exact lt_of_le_of_lt down (behind v mem)
  · intro i
    by_cases mine : takes G b.window i
    · exact (stored i (all i mine)).symm ▸ down
    · obtain ⟨other, reached⟩ := not_or.mp mine
      exact Nat.le_trans down (Nat.le_trans (Nat.le_of_not_lt reached) (kept.floors other i))
  · intro lsn mem
    exact Nat.le_trans (kept.reports lsn mem) up
  · exact Nat.le_trans kept.reported up
  · intro i
    have before := kept.commits i
    rw [batch] at before
    rw [before]
    by_cases mine : takes G b.window i
    · rw [if_pos (by simpa using all i mine), if_neg (by simp)]
    · have not_landed : i ∉ b.landed := fun mem => mine (takers i (subset mem))
      rw [if_neg (by simpa using not_landed), if_neg (by simp), marksOf_succ here, if_neg mine,
        List.append_nil]
  · intro b' none
    cases none

/-! ## The applies' steps -/

/-- Only where the applies are has changed. -/
theorem Inv.applyAt (inv : Inv s k r) {a : ApplyAt G.members}
    (ok : AtOk G s.sent s.batch k r a) : Inv { s with apply := a } k r :=
  ⟨inv.kept, inv.completed, inv.received, inv.queue, ok⟩

/-- A batch none of whose marks is durable yet. -/
theorem Kept.open_ {applied cur reported : Nat} {sent : List Window} {reports : List Nat}
    {stored : Fin G.members → Nat} {commits : Fin G.members → List Nat} {w : Window}
    {asked : Finset (Fin G.members)}
    (kept : Kept G applied cur reported sent reports stored commits none k)
    (here : sent[k]? = some w) (takers : ∀ i ∈ asked, takes G w i) :
    Kept G applied cur reported sent reports stored commits (some ⟨w, asked, ∅⟩) k := by
  refine ⟨kept.order, kept.upto, kept.applied_le, kept.ahead, kept.below, kept.floors,
    kept.reports, kept.reported, ?_, ?_⟩
  · intro i
    have fresh : decide (i ∈ (∅ : Finset (Fin G.members))) = false :=
      decide_eq_false (Finset.notMem_empty i)
    rw [Option.any_some, fresh]
    exact kept.commits i
  · intro b is
    cases is
    refine ⟨here, takers, Finset.empty_subset _, ?_⟩
    intro i mem
    exact absurd mem (Finset.notMem_empty i)

/-- The next mark of an open batch is asked for. -/
theorem Kept.ask {applied cur reported : Nat} {sent : List Window} {reports : List Nat}
    {stored : Fin G.members → Nat} {commits : Fin G.members → List Nat} {b : Batch G.members}
    {i : Fin G.members}
    (kept : Kept G applied cur reported sent reports stored commits (some b) k)
    (taker : takes G b.window i) :
    Kept G applied cur reported sent reports stored commits
      (some { b with asked := insert i b.asked }) k := by
  obtain ⟨here, takers, subset, landed⟩ := kept.batch b rfl
  refine ⟨kept.order, kept.upto, kept.applied_le, kept.ahead, kept.below, kept.floors,
    kept.reports, kept.reported, kept.commits, ?_⟩
  intro b' is
  cases is
  refine ⟨here, ?_, fun j mem => Finset.mem_insert_of_mem (subset mem), landed⟩
  intro j mem
  obtain rfl | old := Finset.mem_insert.mp mem
  · exact taker
  · exact takers j old

theorem turn_cases {n : Nat} {turns : Fin n → Turn} {i j : Fin n} {t u : Turn}
    (is : turn turns i t j = u) : (j = i ∧ t = u) ∨ turns j = u := by
  rw [turn, Function.update_apply] at is
  split at is
  · rename_i same
    exact .inl ⟨same, is⟩
  · exact .inr is

/-- The first window in the channel is received. -/
theorem Inv.receive (inv : Inv s k r) {w : Window} {ws : List Window}
    (first : s.queue = w :: ws) :
    s.sent[r]? = some w ∧ ws = s.sent.drop (r + 1) ∧ r + 1 ≤ s.sent.length := by
  have split : s.sent.drop r = w :: ws := inv.queue.symm.trans first
  have here : s.sent[r]? = some w := by
    have head : (s.sent.drop r)[0]? = s.sent[r]? := List.getElem?_drop
    rw [split] at head
    exact head.symm
  refine ⟨here, ?_, (List.getElem?_eq_some_iff.mp here).1⟩
  rw [← List.tail_drop, split, List.tail_cons]

theorem books_begin {sent : List Window} {w : Window} (here : sent[k]? = some w) :
    Books ⟨1, 0, [], [⟨0, w, 0, false⟩], false, .select, false⟩ sent k 0 := by
  refine ⟨?_, ?_, ?_, ?_⟩
  · intro d mem
    cases mem
  · intro f mem
    rw [List.mem_singleton.mp mem]
    exact ⟨Nat.zero_lt_one, here⟩
  · intro v held
    cases held
  · intro id _ below
    exact .inr ⟨_, List.mem_singleton_self _, (Nat.lt_one_iff.mp below).symm⟩

theorem atOk_begin {sent : List Window} {w : Window} (here : sent[k]? = some w)
    {lanes : Nat} {parallelOk : Bool} :
    AtOk G sent (Batch.begin w (armOf G.dest G.members lanes parallelOk)) k (k + 1)
      (.begin G w lanes (armOf G.dest G.members lanes parallelOk)) := by
  have own (pool : Option Nat) (other : G.dest ≠ .bq) : AtOk G sent (some ⟨w, ∅, ∅⟩) k (k + 1)
      (.own pool w fun _ => .queued) := by
    refine ⟨rfl, other, _, rfl, rfl, ?_, ?_⟩
    · intro i is
      cases is
    · intro i is
      cases is
  by_cases dest : G.dest = .bq
  · rw [armOf, if_pos dest]
    exact ⟨rfl, rfl, here, dest⟩
  · cases arm : armOf G.dest G.members lanes parallelOk with
    | bq =>
        rw [armOf, if_neg dest] at arm
        split_ifs at arm
    | group => exact ⟨rfl, rfl, here⟩
    | parallel =>
        refine ⟨rfl, k, rfl, rfl, books_begin here, ?_⟩
        intro _ d mem
        cases mem
    | pooled => exact own _ dest
    | serial => exact own _ dest

theorem kept_begin {applied cur reported : Nat} {sent : List Window} {reports : List Nat}
    {stored : Fin G.members → Nat} {commits : Fin G.members → List Nat} {w : Window} {arm : Arm}
    (kept : Kept G applied cur reported sent reports stored commits none k)
    (here : sent[k]? = some w) :
    Kept G applied cur reported sent reports stored commits (Batch.begin w arm) k := by
  have opened : Kept G applied cur reported sent reports stored commits (some ⟨w, ∅, ∅⟩) k :=
    kept.open_ here fun i mem => absurd mem (Finset.notMem_empty i)
  cases arm with
  | pooled | serial => exact opened
  | _ => exact kept

/-- A member's turn in a unit of its own. -/
theorem AtOk.turn {sent : List Window} {b : Batch G.members} {pool : Option Nat} {w : Window}
    {turns : Fin G.members → Turn} {i : Fin G.members} {t : Turn}
    (ok : AtOk G sent (some b) k r (.own pool w turns)) (applying : t = .applying → takes G w i)
    (done : t = .done → i ∈ b.landed ∨ ¬ takes G w i) :
    AtOk G sent (some b) k r (.own pool w (Slot.turn turns i t)) := by
  obtain ⟨received, other, b', same, is, at_, ends⟩ := ok
  cases same
  refine ⟨received, other, _, rfl, is, ?_, ?_⟩
  · intro j now
    cases turn_cases now with
    | inl here => exact here.1 ▸ applying here.2
    | inr before => exact at_ j before
  · intro j now
    cases turn_cases now with
    | inl here => exact here.1 ▸ done here.2
    | inr before => exact ends j before

/-- A window goes in flight behind those before it. -/
theorem Books.push {p : Parallel} {sent : List Window} {base first : Nat} {w : Window}
    (books : Books p sent base first) (here : sent[base + p.seq]? = some w) {m : Mode}
    (free : ∀ v, m ≠ .hold v) (barrier : Bool) :
    Books { p.push w with barrier := barrier, mode := m } sent base first := by
  refine ⟨?_, ?_, ?_, ?_⟩
  · intro d mem
    obtain ⟨below, at_⟩ := books.done d mem
    exact ⟨Nat.lt_succ_of_lt below, at_⟩
  · intro f mem
    obtain mem | mem := List.mem_append.mp mem
    · obtain ⟨below, at_⟩ := books.inflight f mem
      exact ⟨Nat.lt_succ_of_lt below, at_⟩
    · rw [List.mem_singleton.mp mem]
      exact ⟨Nat.lt_succ_self _, here⟩
  · intro v held
    exact absurd held (free v)
  · intro id above below
    obtain before | rfl := Nat.lt_succ_iff_lt_or_eq.mp below
    · apply (books.covered id above before).imp_right
      intro ⟨f, mem, is⟩
      exact ⟨f, List.mem_append_left _ mem, is⟩
    · exact .inr ⟨_, List.mem_append_right _ (List.mem_singleton_self _), rfl⟩

/-- A flight goes on under its number. -/
theorem Books.flight {p : Parallel} {sent : List Window} {base first : Nat}
    {fs fs' : List Flight} {f g : Flight} (books : Books p sent base first)
    (flying : p.inflight = fs ++ f :: fs') (same : g.id = f.id ∧ g.window = f.window) :
    Books { p with inflight := fs ++ g :: fs' } sent base first := by
  have known := books.inflight
  rw [flying] at known
  refine ⟨books.done, ?_, books.held, ?_⟩
  · intro h mem
    obtain mem | mem := List.mem_append.mp mem
    · exact known h (List.mem_append_left _ mem)
    · obtain rfl | mem := List.mem_cons.mp mem
      · rw [same.1, same.2]
        exact known f (List.mem_append_right _ List.mem_cons_self)
      · exact known h (List.mem_append_right _ (List.mem_cons_of_mem _ mem))
  · intro id above below
    apply (books.covered id above below).imp_right
    intro ⟨h, mem, is⟩
    rw [flying] at mem
    obtain mem | mem := List.mem_append.mp mem
    · exact ⟨h, List.mem_append_left _ mem, is⟩
    · obtain rfl | mem := List.mem_cons.mp mem
      · exact ⟨g, List.mem_append_right _ List.mem_cons_self, same.1.trans is⟩
      · exact ⟨h, List.mem_append_right _ (List.mem_cons_of_mem _ mem), is⟩

/-- A flight that all members have applied is among what is done. -/
theorem Books.settle {p : Parallel} {sent : List Window} {base first : Nat}
    {fs fs' : List Flight} {f : Flight} (books : Books p sent base first)
    (flying : p.inflight = fs ++ f :: fs') :
    Books { p with inflight := fs ++ fs', done := p.done ++ [(f.id, f.window)], settling := true }
      sent base first := by
  have known := books.inflight
  rw [flying] at known
  refine ⟨?_, ?_, books.held, ?_⟩
  · intro d mem
    obtain mem | mem := List.mem_append.mp mem
    · exact books.done d mem
    · rw [List.mem_singleton.mp mem]
      exact known f (List.mem_append_right _ List.mem_cons_self)
  · intro h mem
    obtain mem | mem := List.mem_append.mp mem
    · exact known h (List.mem_append_left _ mem)
    · exact known h (List.mem_append_right _ (List.mem_cons_of_mem _ mem))
  · intro id above below
    obtain ⟨w, mem⟩ | ⟨h, mem, is⟩ := books.covered id above below
    · exact .inl ⟨w, List.mem_append_left _ mem⟩
    · rw [flying] at mem
      obtain mem | mem := List.mem_append.mp mem
      · exact .inr ⟨h, List.mem_append_left _ mem, is⟩
      · obtain rfl | mem := List.mem_cons.mp mem
        · refine .inl ⟨h.window, List.mem_append_right _ ?_⟩
          rw [is]
          exact List.mem_singleton_self _
        · exact .inr ⟨h, List.mem_append_right _ mem, is⟩

/-- What one step of the parallel arm's books keeps. -/
theorem Books.step {p p' : Parallel} {sent : List Window} {base : Nat}
    (books : Books p sent base p.expected)
    (gap : p.settling = false → ∀ d ∈ p.done, d.1 ≠ p.expected) (step : ParallelStep G p p') :
    Books p' sent base p'.expected ∧ p'.expected = p.expected ∧
      p'.seq + p'.mode.held = p.seq + p.mode.held ∧
        (p'.settling = false → ∀ d ∈ p'.done, d.1 ≠ p'.expected) := by
  cases step with
  | member flying _ _ => exact ⟨books.flight flying ⟨rfl, rfl⟩, rfl, rfl, gap⟩
  | memberFails flying _ => exact ⟨books.flight flying ⟨rfl, rfl⟩, rfl, rfl, gap⟩
  | settle flying _ _ _ =>
      refine ⟨books.settle flying, rfl, rfl, ?_⟩
      intro off
      cases off
  | settled _ free =>
      exact ⟨⟨books.done, books.inflight, books.held, books.covered⟩, rfl, rfl, fun _ => free⟩
  | alone held _ _ =>
      have pushed := books.push (books.held _ held) (m := .select) (fun v now => by cases now) true
      refine ⟨pushed, rfl, ?_, gap⟩
      rw [held]
      rfl

/-- The next of the contiguous prefix is taken out. -/
theorem Books.take {p : Parallel} {sent : List Window} {base : Nat} {w : Window}
    {ds ds' : List (Nat × Window)} (books : Books p sent base p.expected)
    (next : p.done = ds ++ (p.expected, w) :: ds') :
    sent[base + p.expected]? = some w ∧ p.expected < p.seq ∧
      Books { p with done := ds ++ ds' } sent base (p.expected + 1) := by
  have known := books.done
  rw [next] at known
  obtain ⟨below, here⟩ := known _ (List.mem_append_right _ List.mem_cons_self)
  refine ⟨here, below, ?_, books.inflight, books.held, ?_⟩
  · intro d mem
    obtain mem | mem := List.mem_append.mp mem
    · exact known d (List.mem_append_left _ mem)
    · exact known d (List.mem_append_right _ (List.mem_cons_of_mem _ mem))
  · intro id above below
    obtain ⟨v, mem⟩ | flying := books.covered id (Nat.le_of_succ_le above) below
    · rw [next] at mem
      obtain mem | mem := List.mem_append.mp mem
      · exact .inl ⟨v, List.mem_append_left _ mem⟩
      · obtain same | mem := List.mem_cons.mp mem
        · cases same
          exact absurd above (Nat.not_succ_le_self _)
        · exact .inl ⟨v, List.mem_append_right _ mem⟩
    · exact .inr flying

/-! ## The apply loop's steps, one lemma each -/

theorem Inv.begins (inv : Inv s k r) {w : Window} {ws : List Window} {lanes : Nat}
    {parallelOk : Bool} (is : s.apply = .recv) (first : s.queue = w :: ws) :
    Inv
      { s with
        queue := ws
        apply := .begin G w lanes (armOf G.dest G.members lanes parallelOk)
        batch := Batch.begin w (armOf G.dest G.members lanes parallelOk) } k (k + 1) := by
  have at_ := inv.at_
  rw [is] at at_
  obtain ⟨rfl, none⟩ := at_
  obtain ⟨here, rest, within⟩ := inv.receive first
  have kept := inv.kept
  rw [none] at kept
  exact ⟨kept_begin kept here, Nat.le_succ r, within, rest, atOk_begin here⟩

/-- A member's turn, in a unit of its own. -/
theorem Inv.turns (inv : Inv s k r) {pool : Option Nat} {w : Window}
    {turns : Fin G.members → Turn} {i : Fin G.members} {t : Turn} (is : s.apply = .own pool w turns)
    (applying : t = .applying → takes G w i)
    (done : t = .done → (∃ b, s.batch = some b ∧ i ∈ b.landed) ∨ ¬ takes G w i) :
    Inv { s with apply := .own pool w (turn turns i t) } k r := by
  have at_ := inv.at_
  rw [is] at at_
  obtain ⟨b, batch⟩ : ∃ b, s.batch = some b := by
    obtain ⟨_, _, b, batch, _⟩ := at_
    exact ⟨b, batch⟩
  apply inv.applyAt
  rw [batch] at at_ ⊢
  apply at_.turn applying
  intro ended
  apply (done ended).imp_left
  rintro ⟨b', batch', landed⟩
  obtain rfl := Option.some.inj (batch.symm.trans batch')
  exact landed

theorem Inv.ownBegin (inv : Inv s k r) {pool : Option Nat} {w : Window}
    {turns : Fin G.members → Turn} {i : Fin G.members} (is : s.apply = .own pool w turns) :
    Inv { s with
      apply := .own pool w
        (turn turns i (if w.endLsn ≤ G.floors i then .done else .applying)) } k r := by
  have at_ := inv.at_
  rw [is] at at_
  obtain ⟨_, other, _⟩ := at_
  apply inv.turns is
  · intro applying
    split at applying
    · cases applying
    · rename_i above
      exact .inr (Nat.lt_of_not_le above)
  · intro done
    split at done
    · rename_i past
      exact .inr (not_or.mpr ⟨other, Nat.not_lt.mpr past⟩)
    · cases done

theorem Inv.ownClose (inv : Inv s k r) {pool : Option Nat} {w : Window}
    {turns : Fin G.members → Turn} {b : Batch G.members} {i : Fin G.members}
    (is : s.apply = .own pool w turns) (applying : turns i = .applying)
    (batch : s.batch = some b) :
    Inv
      { s with
        apply := .own pool w (turn turns i .closing)
        batch := some { b with asked := insert i b.asked } } k r := by
  have at_ := inv.at_
  rw [is, batch] at at_
  obtain ⟨received, other, b', alike, rfl, on, ends⟩ := at_
  cases alike
  have kept := inv.kept
  rw [batch] at kept
  refine ⟨kept.ask (on i applying), inv.completed, inv.received, inv.queue, ?_⟩
  have opened : AtOk G s.sent (some { b with asked := insert i b.asked }) k r
      (.own pool b.window turns) := ⟨received, other, _, rfl, rfl, on, ends⟩
  apply opened.turn
  · intro now
    cases now
  · intro now
    cases now

theorem Inv.ownOk (inv : Inv s k r) {pool : Option Nat} {w : Window}
    {turns : Fin G.members → Turn} (is : s.apply = .own pool w turns)
    (all : ∀ i, turns i = .done) :
    Inv (s.complete w .recv) (k + 1) (k + 1) ∧ s.applied ≤ s.publish w.endLsn := by
  have at_ := inv.at_
  rw [is] at at_
  obtain ⟨rfl, _, b, batch, rfl, _, done⟩ := at_
  obtain ⟨kept, up⟩ := inv.complete batch fun i mine =>
    (done i (all i)).resolve_right fun not_mine => not_mine mine
  exact ⟨⟨kept, Nat.le_refl _, inv.received, inv.queue, rfl, rfl⟩, up⟩

/-- The group's turns ask for no mark. -/
theorem Inv.groupTurn (inv : Inv s k r) {pool : Option Nat} {w : Window}
    {turns turns' : Fin G.members → Turn} (is : s.apply = .group pool w turns) :
    Inv { s with apply := .group pool w turns' } k r := by
  have at_ := inv.at_
  rw [is] at at_
  exact inv.applyAt at_

theorem Inv.groupClose (inv : Inv s k r) {pool : Option Nat} {w : Window}
    {turns : Fin G.members → Turn} (is : s.apply = .group pool w turns)
    (ended : finished pool turns) :
    Inv
      { s with
        apply := .closing w (decide (∃ i, turns i = .failed))
        batch := some ⟨w, marked G w turns, ∅⟩ } k (k + 1) := by
  have at_ := inv.at_
  rw [is] at at_
  obtain ⟨rfl, none, here⟩ := at_
  have kept := inv.kept
  rw [none] at kept
  refine ⟨kept.open_ here ?_, inv.completed, inv.received, inv.queue, rfl, _, rfl, rfl, ?_⟩
  · intro i mem
    exact (Finset.mem_filter.mp mem).2.2
  · intro well i mine
    have none_failed : ¬ ∃ i, turns i = .failed := of_decide_eq_false well
    have done : turns i = .done := by
      cases pool with
      | none => exact (ended.resolve_right none_failed) i
      | some lanes => exact (ended i).resolve_right fun failed => none_failed ⟨i, failed⟩
    exact Finset.mem_filter.mpr ⟨Finset.mem_univ i, done, mine⟩

theorem Inv.staged (inv : Inv s k r) {w : Window} (is : s.apply = .staging w) :
    Inv
      { s with
        apply := .closing w false
        batch := some ⟨w, Finset.univ, ∅⟩ } k (k + 1) := by
  have at_ := inv.at_
  rw [is] at at_
  obtain ⟨rfl, none, here, dest⟩ := at_
  have kept := inv.kept
  rw [none] at kept
  exact ⟨kept.open_ here fun _ _ => .inl dest, inv.completed, inv.received, inv.queue, rfl, _, rfl,
    rfl, fun _ i _ => Finset.mem_univ i⟩

theorem Inv.closeOk (inv : Inv s k r) {w : Window} {b : Batch G.members}
    (is : s.apply = .closing w false) (batch : s.batch = some b) (all : b.asked ⊆ b.landed) :
    Inv (s.complete w .recv) (k + 1) (k + 1) ∧ s.applied ≤ s.publish w.endLsn := by
  have at_ := inv.at_
  rw [is] at at_
  obtain ⟨rfl, b', batch', rfl, asked⟩ := at_
  obtain rfl := Option.some.inj (batch.symm.trans batch')
  obtain ⟨kept, up⟩ := inv.complete batch fun i mine => all (asked rfl i mine)
  exact ⟨⟨kept, Nat.le_refl _, inv.received, inv.queue, rfl, rfl⟩, up⟩

theorem Inv.more (inv : Inv s k r) {p : Parallel} {w : Window} {ws : List Window}
    (is : s.apply = .parallel p) (select : p.mode = .select) (first : s.queue = w :: ws) :
    Inv
      { s with
        queue := ws
        apply := .parallel (if w.parallelSafe then p.push w else { p with mode := .hold w }) }
      k (r + 1) := by
  have at_ := inv.at_
  rw [is] at at_
  obtain ⟨none, base, rfl, received, books, gap⟩ := at_
  rw [select] at received
  obtain ⟨here, rest, within⟩ := inv.receive first
  rw [received] at here
  refine ⟨inv.kept, Nat.le_succ_of_le inv.completed, within, rest, none, base, ?_⟩
  split
  · have pushed := books.push here (m := p.mode)
      (fun v now => by rw [select] at now; cases now) p.barrier
    refine ⟨rfl, ?_, pushed, gap⟩
    rw [received]
    simp only [Parallel.push, select, Mode.held]
    omega
  · refine ⟨rfl, ?_, ⟨books.done, books.inflight, ?_, books.covered⟩, gap⟩
    · rw [received]
      rfl
    · intro v held
      cases held
      exact here

theorem Inv.closed (inv : Inv s k r) {p : Parallel} (is : s.apply = .parallel p)
    (select : p.mode = .select) :
    Inv { s with apply := .parallel { p with mode := .drainOut } } k r := by
  have at_ := inv.at_
  rw [is] at at_
  obtain ⟨none, base, rfl, received, books, gap⟩ := at_
  rw [select] at received
  refine inv.applyAt ⟨none, base, rfl, received, ⟨books.done, books.inflight, ?_,
    books.covered⟩, gap⟩
  intro v held
  cases held

theorem Inv.books (inv : Inv s k r) {p p' : Parallel} (is : s.apply = .parallel p)
    (step : ParallelStep G p p') : Inv { s with apply := .parallel p' } k r := by
  have at_ := inv.at_
  rw [is] at at_
  obtain ⟨none, base, is_k, received, books, gap⟩ := at_
  obtain ⟨books, expected, count, gap⟩ := books.step gap step
  refine inv.applyAt ⟨none, base, by rw [expected, is_k], ?_, books, gap⟩
  rw [received, Nat.add_assoc, Nat.add_assoc, count]

theorem Inv.prefixClose (inv : Inv s k r) {p : Parallel} {w : Window} {ds ds' : List (Nat × Window)}
    (is : s.apply = .parallel p) (in_ : p.settling = true)
    (next : p.done = ds ++ (p.expected, w) :: ds') :
    Inv
      { s with
        apply := .prefixClosing { p with done := ds ++ ds' } w
        batch := some ⟨w, Finset.univ.filter (takes G w), ∅⟩ } k r := by
  have at_ := inv.at_
  rw [is] at at_
  obtain ⟨none, base, rfl, received, books, gap⟩ := at_
  obtain ⟨here, begun, books⟩ := books.take next
  have kept := inv.kept
  rw [none] at kept
  refine ⟨kept.open_ here ?_, inv.completed, inv.received, inv.queue, ⟨_, rfl, rfl, ?_⟩, base, rfl,
    begun, received, books, in_⟩
  · intro i mem
    exact (Finset.mem_filter.mp mem).2
  · intro i mine
    exact Finset.mem_filter.mpr ⟨Finset.mem_univ i, mine⟩

theorem Inv.prefixOk (inv : Inv s k r) {p : Parallel} {w : Window} {b : Batch G.members}
    (is : s.apply = .prefixClosing p w) (batch : s.batch = some b) (all : b.asked ⊆ b.landed) :
    Inv (s.complete w (.parallel { p with expected := p.expected + 1 })) (k + 1) r ∧
      s.applied ≤ s.publish w.endLsn := by
  have at_ := inv.at_
  rw [is] at at_
  obtain ⟨⟨b', batch', rfl, asked⟩, base, rfl, begun, received, books, in_⟩ := at_
  obtain rfl := Option.some.inj (batch.symm.trans batch')
  obtain ⟨kept, up⟩ := inv.complete batch fun i mine => all (asked i mine)
  refine ⟨⟨kept, ?_, inv.received, inv.queue, rfl, base, rfl, received,
    ⟨books.done, books.inflight, books.held, books.covered⟩, ?_⟩, up⟩
  · omega
  · intro off
    rw [in_] at off
    cases off

/-- With nothing in flight every window received is closed. -/
theorem Inv.armOver (inv : Inv s k r) {p : Parallel} (is : s.apply = .parallel p)
    (out : p.mode = .drainOut) (free : p.settling = false) (none_ : p.inflight = []) :
    Inv { s with apply := .recv } k r := by
  have at_ := inv.at_
  rw [is] at at_
  obtain ⟨none, base, rfl, received, books, gap⟩ := at_
  have completed := inv.completed
  have all : p.seq ≤ p.expected := by
    by_contra more
    obtain ⟨w, mem⟩ | ⟨f, mem, _⟩ :=
      books.covered p.expected (Nat.le_refl _) (Nat.lt_of_not_le more)
    · exact gap free _ mem rfl
    · rw [none_] at mem
      cases mem
  refine inv.applyAt ⟨?_, none⟩
  rw [out] at received
  have held : Mode.drainOut.held = 0 := rfl
  omega

theorem Inv.apply (inv : Inv s k r) (step : ApplyStep s s') :
    ∃ k' r', Inv s' k' r' ∧ s.applied ≤ s'.applied := by
  have same : s.applied ≤ s.applied := Nat.le_refl _
  cases step with
  | receive _ _ is first _ => exact ⟨_, _, inv.begins is first, same⟩
  | finish | die | ownErr => exact ⟨_, _, inv.applyAt trivial, same⟩
  | ownBegin i is _ _ => exact ⟨_, _, inv.ownBegin is, same⟩
  | ownClose i is applying batch => exact ⟨_, _, inv.ownClose is applying batch, same⟩
  | ownDone i is _ batch landed =>
      exact ⟨_, _, inv.turns is nofun fun _ => .inl ⟨_, batch, landed⟩, same⟩
  | ownFail i is _ => exact ⟨_, _, inv.turns (t := .failed) is nofun nofun, same⟩
  | ownOk is all => exact ⟨_, _, inv.ownOk is all⟩
  | groupBegin i is _ _ | groupDone i is _ | groupFail i is _ =>
      exact ⟨_, _, inv.groupTurn is, same⟩
  | groupClose is ended => exact ⟨_, _, inv.groupClose is ended, same⟩
  | staged is => exact ⟨_, _, inv.staged is, same⟩
  | closeOk is batch all => exact ⟨_, _, inv.closeOk is batch all⟩
  | more is select _ _ _ first => exact ⟨_, _, inv.more is select first, same⟩
  | closed is select => exact ⟨_, _, inv.closed is select, same⟩
  | books is step => exact ⟨_, _, inv.books is step, same⟩
  | prefixClose is in_ next => exact ⟨_, _, inv.prefixClose is in_ next, same⟩
  | prefixOk is batch all => exact ⟨_, _, inv.prefixOk is batch all⟩
  | armOver is out free none_ => exact ⟨_, _, inv.armOver is out free none_, same⟩

/-! ## Whole runs -/

theorem Inv.step (inv : Inv s k r) (step : Step s s') :
    ∃ k' r', Inv s' k' r' ∧ s.applied ≤ s'.applied := by
  cases step with
  | drain step => exact ⟨k, r, inv.drain step, by cases step <;> exact Nat.le_refl _⟩
  | apply step => exact inv.apply step
  | land i batch asked fresh => exact ⟨k, r, inv.land batch asked fresh, Nat.le_refl _⟩

theorem Reaches.inv (reached : Reaches G s) : ∃ k r, Inv s k r := by
  induction reached with
  | start => exact ⟨0, 0, inv_start⟩
  | step _ step ih =>
      obtain ⟨k, r, inv⟩ := ih
      obtain ⟨k', r', inv', _⟩ := inv.step step
      exact ⟨k', r', inv'⟩

/-- Every LSN a standby status carried is at most every member's durable watermark, the watch
never goes back, and the marks a member committed are those of the first windows it did not
skip. -/
theorem slot_behind_durable (reached : Reaches G s) :
    (∀ lsn ∈ s.reports, ∀ i, lsn ≤ s.stored i) ∧ (∀ s', Step s s' → s.applied ≤ s'.applied) ∧
      ∀ i, ∃ m, s.commits i = marksOf G i (s.sent.take m) := by
  obtain ⟨k, r, inv⟩ := reached.inv
  refine ⟨?_, ?_, ?_⟩
  · intro lsn mem i
    exact Nat.le_trans (inv.kept.reports lsn mem) (inv.kept.below i)
  · intro s' step
    obtain ⟨k', r', _, up⟩ := inv.step step
    exact up
  · intro i
    exact ⟨_, inv.kept.commits i⟩

/-- One member of a Postgres group, at 3. -/
def oneMember : Group where
  dest := .pg
  members := 1
  floors _ := 3
  wm := 3
  lowest := ⟨⟨0, rfl⟩, fun _ ⟨_, is⟩ => Nat.le_of_eq is⟩
  depth := 1

/-- A window that ends at 7 is sent, applied, committed and confirmed. -/
theorem slot_behind_durable_confirmed :
    ∃ s : State oneMember, s.reports = [7] ∧ ∀ lsn ∈ s.reports, ∀ i, lsn ≤ s.stored i := by
  let i : Fin oneMember.members := ⟨0, Nat.zero_lt_one⟩
  have sent := (Reaches.start (G := oneMember)).step
    (.drain (.drained ⟨7, true⟩ false rfl (by decide))) |>.step
    (.drain (.send rfl (by intro ended; cases ended) (by decide) (by decide)))
  have applied := sent.step (.apply (.receive 1 false rfl rfl Bool.noConfusion)) |>.step
    (.apply (.ownBegin i rfl rfl fun j before => absurd before (Nat.not_lt_zero j))) |>.step
    (.apply (.ownClose i rfl rfl rfl)) |>.step
    (.land i rfl (Finset.mem_insert_self i ∅) (Finset.notMem_empty i)) |>.step
    (.apply (.ownDone i rfl rfl rfl (Finset.mem_insert_self i ∅)))
  have turned : turn (turn (turn (fun _ => .queued) i .applying) i .closing) i .done i =
      Turn.done := rfl
  have told := applied.step (.apply (.ownOk rfl (Fin.forall_fin_one.mpr turned))) |>.step
    (.drain (.caughtUp rfl (by decide))) |>.step (.drain (.last rfl rfl)) |>.step
    (.drain (.confirm rfl (by decide)))
  exact ⟨_, rfl, (slot_behind_durable told).1⟩

end Apitap.Slot
