import Apitap.Guard.OneOwner

/-!
# The fence of a unit

A unit takes its rows before it writes, and holds them until it commits. A claim needs
a row that no unit holds, and marks it for good: a row that was claimed is never taken
again, and no unit that holds a row sees it claimed.
-/

namespace Apitap.Guard

/-- Claims and commits of units, in the order the destination ran them. -/
structure Fenced (F : Fleet) (s : Dest) : Prop where
  /-- A row that a unit holds is there, and is not collected. -/
  held : ∀ p keys, s.tx p = .live keys → ∀ k ∈ keys,
    ∃ row, s.rows k p.token = some row ∧ row.collected = false
  /-- A row that is not collected was never claimed. -/
  clean : ∀ k τ row, s.rows k τ = some row → row.collected = false → .claimed k τ ∉ s.events
  /-- A commit comes after no claim of its rows. -/
  order : ∀ newer older τ keys, s.events = newer ++ .committed τ keys :: older →
    ∀ k ∈ keys, .claimed k τ ∉ older
  /-- A commit is of every row of a unit. -/
  whole : ∀ τ keys, .committed τ keys ∈ s.events → ∃ n, keys = (F.units τ n).reverse

/-- What a caller owes the fence: it opens rows before any of its own was claimed, and
commits a unit whole. -/
def Keeping (F : Fleet) (s : Dest) (p : Proc) : Call → Prop
  | .leaseOpen _ => ∀ k, .claimed k p.token ∉ s.events
  | .commit => ∀ keys, s.Open p keys → ∃ n, keys = (F.units p.token n).reverse
  | _ => True

section

variable {F : Fleet} {a : Token} {s s' : Dest} {p q : Proc} {c : Call} {ans : Answer} {k : Table}
  {τ : Token}

theorem Fenced.of_eq (fenced : Fenced F s) (rows : s'.rows = s.rows) (tx : s'.tx = s.tx)
    (events : s'.events = s.events) : Fenced F s' := by
  refine ⟨?_, ?_, ?_, ?_⟩
  · rw [rows, tx]
    exact fenced.held
  · rw [rows, events]
    exact fenced.clean
  · rw [events]
    exact fenced.order
  · rw [events]
    exact fenced.whole

theorem setTx_self {tx : Tx} : (s.setTx p tx).tx p = tx := if_pos rfl

theorem setTx_ne {tx : Tx} (ne : q ≠ p) : (s.setTx p tx).tx q = s.tx q := if_neg ne

theorem setRow_self {row : Option Row} : (s.setRow k τ row).rows k τ = row := if_pos ⟨rfl, rfl⟩

theorem setRow_ne {row : Option Row} {u : Table} {σ : Token} (ne : ¬ (u = k ∧ σ = τ)) :
    (s.setRow k τ row).rows u σ = s.rows u σ := if_neg ne

/-- A transaction ends, with nothing done. -/
theorem Fenced.ended (fenced : Fenced F s) : Fenced F (s.setTx p .ended) := by
  refine ⟨fun q keys live => ?_, fenced.clean, fenced.order, fenced.whole⟩
  by_cases same : q = p
  · subst same
    rw [setTx_self] at live
    nomatch live
  · rw [setTx_ne same] at live
    exact fenced.held q keys live

/-- A row lapses or is renewed. -/
theorem Fenced.timed {row : Row} {lapsed : Bool} (fenced : Fenced F s)
    (there : s.rows k τ = some row) :
    Fenced F (s.setRow k τ (some { row with lapsed := lapsed })) := by
  refine ⟨fun p keys live u mem => ?_, fun u σ row' is own => ?_, fenced.order, fenced.whole⟩
  · obtain ⟨old, is, own⟩ := fenced.held p keys live u mem
    by_cases same : u = k ∧ p.token = τ
    · obtain ⟨rfl, rfl⟩ := same
      obtain rfl := Option.some.inj (there.symm.trans is)
      exact ⟨_, setRow_self, own⟩
    · exact ⟨old, (setRow_ne same).trans is, own⟩
  · by_cases same : u = k ∧ σ = τ
    · obtain ⟨rfl, rfl⟩ := same
      obtain rfl := Option.some.inj (setRow_self.symm.trans is)
      exact fenced.clean u σ row there own
    · exact fenced.clean u σ row' ((setRow_ne same).symm.trans is) own

theorem Fenced.drift (fenced : Fenced F s) (moves : Dest.Drift s s') : Fenced F s' := by
  cases moves with
  | lapse there => exact fenced.timed there
  | renew there => exact fenced.timed there
  | hangUp => exact fenced.ended

/-- New rows of a run none of whose rows was ever claimed. -/
theorem Fenced.openRows {keys : List Table} (fenced : Fenced F s)
    (unclaimed : ∀ k, .claimed k a ∉ s.events) : Fenced F (s.openRows a keys) := by
  refine ⟨fun p held live u mem => ?_, fun u σ row is own => ?_, fenced.order, fenced.whole⟩
  · obtain ⟨row, is, own⟩ := fenced.held p held live u mem
    refine ⟨row, (if_neg fun new => ?_).trans is, own⟩
    exact nomatch is.symm.trans new.2.2
  · by_cases new : σ = a ∧ u ∈ keys ∧ s.rows u σ = none
    · exact new.1 ▸ unclaimed u
    · exact fenced.clean u σ row ((if_neg new).symm.trans is) own

/-- A claim of a row that no unit holds. -/
theorem Fenced.claim (fenced : Fenced F s) (free : ¬ s.Locked k τ) : Fenced F (s.claim k τ) := by
  refine ⟨fun p keys live u mem => ?_, fun u σ row is own => ?_, fun newer older σ keys is => ?_,
    fun σ keys mem => ?_⟩
  · obtain ⟨row, is, own⟩ := fenced.held p keys live u mem
    refine ⟨row, (setRow_ne fun same => ?_).trans is, own⟩
    exact free ⟨p, keys, same.2, live, same.1 ▸ mem⟩
  · by_cases same : u = k ∧ σ = τ
    · obtain ⟨rfl, rfl⟩ := same
      obtain rfl := Option.some.inj (setRow_self.symm.trans is)
      nomatch own
    · intro claimed
      obtain is_new | claimed := List.mem_cons.mp claimed
      · obtain ⟨rfl, rfl⟩ := Event.claimed.inj is_new
        exact same ⟨rfl, rfl⟩
      · exact fenced.clean u σ row ((setRow_ne same).symm.trans is) own claimed
  · cases newer with
    | nil => nomatch (List.cons.inj is).1
    | cons _ newer => exact fenced.order newer older σ keys (List.cons.inj is).2
  · obtain is | mem := List.mem_cons.mp mem
    · nomatch is
    · exact fenced.whole σ keys mem

/-- A unit commits what it holds. -/
theorem Fenced.commit {keys : List Table} (fenced : Fenced F s) (open_ : s.Open p keys)
    (whole : ∃ n, keys = (F.units p.token n).reverse) : Fenced F (s.commit p keys) := by
  refine ⟨fenced.ended.held, fun u σ row is own claimed => ?_,
    fun newer older σ taken is u mem => ?_,
    fun σ taken mem => ?_⟩
  · obtain is_new | claimed := List.mem_cons.mp claimed
    · nomatch is_new
    · exact fenced.clean u σ row is own claimed
  · cases newer with
    | nil =>
        obtain ⟨head, rfl⟩ := List.cons.inj is
        obtain ⟨rfl, rfl⟩ := Event.committed.inj head
        obtain live | ⟨-, rfl⟩ := open_
        · obtain ⟨row, there, own⟩ := fenced.held p _ live u mem
          exact fenced.clean u p.token row there own
        · nomatch mem
    | cons _ newer => exact fenced.order newer older σ taken (List.cons.inj is).2 u mem
  · obtain is | mem := List.mem_cons.mp mem
    · obtain ⟨rfl, rfl⟩ := Event.committed.inj is
      exact whole
    · exact fenced.whole σ taken mem

theorem Fenced.served (fenced : Fenced F s) (keeping : Keeping F s p c)
    (served : Dest.Serve p s c ans s') : Fenced F s' := by
  cases served with
  | listed | created | createTorn | dropped | dropUnheard | dropFailed | noLease | lease | refused
  | absent | closeFailed | swept | runClosed | notOwner | failed => exact fenced.of_eq rfl rfl rfl
  | noted => rename_i m; cases m <;> exact fenced.of_eq rfl rfl rfl
  | opened => exact fenced.openRows keeping
  | openFailed => exact fenced.openRows keeping
  | taken _ _ free => exact fenced.claim free
  | takenUnheard _ _ free => exact fenced.claim free
  | committed open_ => exact fenced.commit open_ (keeping _ open_)
  | commitUnheard open_ => exact fenced.commit open_ (keeping _ open_)
  | rolled | rolledBack => exact fenced.ended
  | @closed k _ free =>
      refine ⟨fun q keys live u mem => ?_, fun u σ row is own => ?_, fenced.order, fenced.whole⟩
      · obtain ⟨row, is, own⟩ := fenced.held q keys live u mem
        refine ⟨row, (setRow_ne fun same => ?_).trans is, own⟩
        exact free ⟨q, keys, same.2, live, same.1 ▸ mem⟩
      · by_cases same : u = k ∧ σ = p.token
        · obtain ⟨rfl, rfl⟩ := same
          nomatch setRow_self.symm.trans is
        · exact fenced.clean u σ row ((setRow_ne same).symm.trans is) own
  | @locked k row keys there own open_ free =>
      refine ⟨fun q taken live u mem => ?_, fenced.clean, fenced.order, fenced.whole⟩
      by_cases same : q = p
      · subst same
        obtain rfl := Tx.live.inj (setTx_self.symm.trans live)
        obtain rfl | mem := List.mem_cons.mp mem
        · exact ⟨row, there, own⟩
        · obtain live | ⟨-, rfl⟩ := open_
          · exact fenced.held q keys live u mem
          · nomatch mem
      · rw [setTx_ne same] at live
        exact fenced.held q taken live u mem

/-! ## Every process of a fleet -/

/-- None of the run's rows exists, or was ever claimed. -/
def Unopened (a : Token) (s : Dest) : Prop := ∀ k, s.rows k a = none ∧ .claimed k a ∉ s.events

theorem Unopened.other {row : Row} (unopened : Unopened a s) (there : s.rows k τ = some row)
    (u : Table) : ¬ (u = k ∧ a = τ) := by
  rintro ⟨rfl, rfl⟩
  nomatch there.symm.trans (unopened u).1

theorem Unopened.row {row : Row} {new : Option Row} (unopened : Unopened a s)
    (there : s.rows k τ = some row) : Unopened a (s.setRow k τ new) :=
  fun u => ⟨(setRow_ne (unopened.other there u)).trans (unopened u).1, (unopened u).2⟩

theorem Unopened.drift (unopened : Unopened a s) (moves : Dest.Drift s s') : Unopened a s' := by
  cases moves with
  | lapse there => exact unopened.row there
  | renew there => exact unopened.row there
  | hangUp => exact unopened

theorem Unopened.claim {row : Row} (unopened : Unopened a s) (there : s.rows k τ = some row) :
    Unopened a (s.claim k τ) := by
  refine fun u => ⟨(unopened.row there u).1, fun claimed => ?_⟩
  obtain is_new | claimed := List.mem_cons.mp claimed
  · obtain ⟨same, own⟩ := Event.claimed.inj is_new
    exact unopened.other there u ⟨same, own⟩
  · exact (unopened u).2 claimed

theorem Unopened.open {keys : List Table} (unopened : Unopened a s) (ne : τ ≠ a) :
    Unopened a (s.openRows τ keys) :=
  fun u => ⟨(if_neg fun new => ne new.1.symm).trans (unopened u).1, (unopened u).2⟩

theorem Unopened.served (unopened : Unopened a s) (kind : Kind p c) (other : p ≠ .run a)
    (served : Dest.Serve p s c ans s') : Unopened a s' := by
  cases served with
  | listed | created | createTorn | dropped | dropUnheard | dropFailed | noLease | lease | refused
  | absent | closeFailed | swept | runClosed | failed | locked | notOwner | rolled |
    rolledBack =>
      exact unopened
  | noted => rename_i m; cases m <;> exact unopened
  | opened | openFailed =>
      cases p with
      | unit => nomatch kind
      | run τ => exact unopened.open fun is => other (is ▸ rfl)
  | taken there => exact unopened.claim there
  | takenUnheard there => exact unopened.claim there
  | committed | commitUnheard =>
      refine fun u => ⟨(unopened u).1, fun claimed => ?_⟩
      obtain is_new | claimed := List.mem_cons.mp claimed
      · nomatch is_new
      · exact (unopened u).2 claimed
  | @closed k =>
      refine fun u => ⟨?_, (unopened u).2⟩
      show ite _ _ _ = none
      split
      · rfl
      · exact (unopened u).1

/-- A unit's own transaction, with the rows it has taken so far. -/
def Taking (p : Proc) (done : List Table) (s : Dest) : Prop :=
  s.tx p = .live done ∨ s.tx p = .ended ∨ s.tx p = .fresh ∧ done = []

theorem Taking.same {done keys : List Table} (taking : Taking p done s) (open_ : s.Open p keys) :
    keys = done := by
  obtain is | is | ⟨is, rfl⟩ := taking
  · obtain live | ⟨fresh, -⟩ := open_
    · exact Tx.live.inj (live.symm.trans is)
    · nomatch fresh.symm.trans is
  · obtain live | ⟨fresh, -⟩ := open_
    · nomatch live.symm.trans is
    · nomatch fresh.symm.trans is
  · obtain live | ⟨-, is⟩ := open_
    · nomatch live.symm.trans is
    · exact is

theorem taking_drift {done : List Table} (taking : Taking p done s) (moves : Dest.Drift s s') :
    Taking p done s' := by
  cases moves with
  | lapse | renew => exact taking
  | @hangUp q =>
      by_cases same : p = q
      · subst same
        exact .inr (.inl setTx_self)
      · unfold Taking
        rw [setTx_ne same]
        exact taking

/-- Nobody but a process itself moves its transaction. -/
theorem tx_served (other : q ≠ p) (served : Dest.Serve q s c ans s') : s'.tx p = s.tx p := by
  cases served with
  | noted => rename_i m; cases m <;> rfl
  | locked | committed | commitUnheard | rolled | rolledBack => exact setTx_ne other.symm
  | _ => rfl

/-- A unit, amid every other process. -/
abbrev Within (F : Fleet) (p : Proc) : Env Dest Call Answer := Dest.shared.around Kind (Fenced F) p

theorem taking_stable {done : List Table} (s s' : Dest) (here : Fenced F s ∧ Taking p done s)
    (moves : (Within F p).drift s s') : Fenced F s' ∧ Taking p done s' := by
  obtain ⟨moves | ⟨q, other, c, ans, kind, served⟩, after⟩ := moves
  · exact ⟨after, taking_drift here.2 moves⟩
  · refine ⟨after, ?_⟩
    unfold Taking
    rw [tx_served other served]
    exact here.2

/-- A unit commits its keys, whole. -/
theorem meets_unit {keys done : List Table} {n : Nat} (fenced : Fenced F s)
    (taking : Taking (.unit τ n) done s) (whole : F.units τ n = done.reverse ++ keys) :
    (Within F (.unit τ n)).Meets (Fenced F) (fun _ s => Fenced F s) (Store.unit keys) s := by
  have stop {out : Except Refusal Unit} {s : Dest} (fenced : Fenced F s) :
      (Within F (.unit τ n)).Meets (Fenced F) (fun _ s => Fenced F s) (.pure out) s :=
    .pure (fun _ _ _ moves => moves.2) fenced (fun _ fenced => fenced) fun _ fenced => fenced
  have drops {out : Except Refusal Unit} {s : Dest} (fenced : Fenced F s) :
      (Within F (.unit τ n)).Meets (Fenced F) (fun _ s => Fenced F s)
        (.call .rollback fun _ => .pure out) s := by
    refine .call (fun _ _ _ moves => moves.2) fenced (fun _ fenced => fenced)
      fun s ans s' fenced served => ?_
    exact stop (fenced.served (c := .rollback) trivial served)
  induction keys generalizing done s with
  | nil =>
      refine .call taking_stable ⟨fenced, taking⟩ (fun _ here => here.1) fun s ans s' here served =>
        ?_
      obtain ⟨fenced, taking⟩ := here
      have keeping : Keeping F s (.unit τ n) .commit := fun keys open_ => by
        refine ⟨n, ?_⟩
        show keys = (F.units τ n).reverse
        rw [whole, taking.same open_, List.append_nil, List.reverse_reverse]
      have after := fenced.served keeping served
      match ans with
      | .done => exact stop after
      | .names _ | .lease _ | .claim _ | .held _ | .error => exact stop after
  | cons k keys ih =>
      refine .call taking_stable ⟨fenced, taking⟩ (fun _ here => here.1) fun s ans s' here served =>
        ?_
      obtain ⟨fenced, taking⟩ := here
      have after := fenced.served (c := .lockRow k) trivial served
      match ans with
      | .held true =>
          cases served with
          | @locked _ _ held _ _ open_ =>
              obtain rfl : held = done := taking.same open_
              refine ih after (.inl setTx_self) ?_
              rw [whole, List.reverse_cons, List.append_assoc, List.singleton_append]
      | .held false => exact drops after
      | .names _ | .lease _ | .claim _ | .done | .error => exact drops after

theorem keeping_of_inner (inner : c.Inner τ) : Keeping F s p c := by
  cases c <;> trivial

/-- A run opens its rows once, before any of its own was claimed. -/
theorem meets_run_fenced (start : s.Start) (τ : Token) :
    (Within F (.run τ)).Meets (Fenced F) (fun _ s => Fenced F s) (F.program (.run τ)) s := by
  have fenced : Fenced F s := by
    refine ⟨fun p keys live => ?_, fun k τ row there => ?_, fun newer older τ keys is => ?_,
      fun τ keys mem => ?_⟩
    · rw [start.tx] at live
      nomatch live
    · rw [start.rows] at there
      nomatch there
    · rw [start.events] at is
      exact absurd is.symm (List.append_ne_nil_of_right_ne_nil _ (List.cons_ne_nil _ _))
    · rw [start.events] at mem
      nomatch mem
  have inner {α : Type} {prog : Client α} {s : Dest} (only : prog.Only (Call.Inner τ))
      (fenced : Fenced F s) : (Within F (.run τ)).Meets (Fenced F) (fun _ s => Fenced F s) prog s :=
    .frame only (fun _ _ _ moves => moves.2)
      (fun _ _ _ _ is fenced served => fenced.served (keeping_of_inner is) served)
      (fun _ fenced => fenced) fenced
  show (Within F (.run τ)).Meets _ _ (ite _ _ _) s
  split
  · have unopened : Unopened τ s := fun k => ⟨start.rows k τ, start.events ▸ nofun⟩
    refine Env.Meets.bind (Q := fun _ s => Fenced F s) ?_ fun out s fenced => ?_
    · refine .call (P := fun s => Fenced F s ∧ Unopened τ s) (fun s s' here moves => ?_)
        ⟨fenced, unopened⟩ (fun _ here => here.1) fun s ans s' here served => ?_
      · obtain ⟨moves | ⟨q, other, c, ans, kind, served⟩, after⟩ := moves
        · exact ⟨after, here.2.drift moves⟩
        · exact ⟨after, here.2.served kind other served⟩
      · have keeping : Keeping F s (.run τ) (.leaseOpen (F.tables τ)) := fun k => (here.2 k).2
        have after := here.1.served keeping served
        match ans with
        | .done =>
            exact inner (Store.only_acquired _ : Prog.Only (Call.Inner (F.runId τ).token) _) after
        | .names _ | .lease _ | .claim _ | .held _ | .error => exact inner (.pure _) after
    · match out with
      | some held =>
          exact inner (Store.only_giveBackRun _ : Prog.Only (Call.Inner (F.runId τ).token) _) fenced
      | none => exact inner (.pure _) fenced
  · split
    · exact inner (Store.only_bulk _ : Prog.Only (Call.Inner (F.runId τ).token) _) fenced
    · exact inner (.pure _) fenced

theorem reaches_fenced {s₀ : Dest} {p : Proc → Client Unit} (start : s₀.Start)
    (run : Dest.shared.Reaches (s₀, F.program) (s, p)) : Fenced F s := by
  have meets (p : Proc) :
      (Within F p).Meets (Fenced F) (fun _ s => Fenced F s) (F.program p) s₀ := by
    cases p with
    | run τ => exact meets_run_fenced start τ
    | unit τ n =>
        have taking : Taking (.unit τ n) [] s₀ := .inr (.inr ⟨start.tx _, rfl⟩)
        refine (meets_unit (meets_run_fenced start τ).now taking rfl).bind fun _ s fenced => ?_
        exact .pure (fun _ _ _ moves => moves.2) fenced (fun _ fenced => fenced) fun _ fenced =>
          fenced
  exact (run.meets F.only_program (meets (.run ⟨0, .cdc, 0, 0⟩)).now
    (fun _ _ fenced moves => fenced.drift moves) meets).1

end

/-- Of two runs past their checks of a table that may not share it, and of which neither
was spawned inside the other, one has been claimed; and a unit that commits holds every
row of its tables, none of them claimed before. -/
theorem one_owner (F : Fleet) {s₀ s : Dest} {p : Proc → Client Unit} (start : s₀.Start)
    (run : Dest.shared.Reaches (s₀, F.program) (s, p)) :
    (∀ a b t, a ≠ b → F.parent a ≠ some b → F.parent b ≠ some a → peerBlocks a b = true →
      (a, t) ∈ s.passed → (b, t) ∈ s.passed → Claimed s t a ∨ Claimed s t b) ∧
    ∀ newer older τ keys, s.events = newer ++ .committed τ keys :: older →
      (∃ n, keys = (F.units τ n).reverse) ∧ ∀ k ∈ keys, .claimed k τ ∉ older := by
  refine ⟨fun a b t ne a_child b_child conflict => ?_, fun newer older τ keys is => ⟨?_, ?_⟩⟩
  · exact (reaches_sound start run).claimed ne a_child b_child conflict
  · refine (reaches_fenced start run).whole τ keys ?_
    rw [is]
    exact List.mem_append_right _ List.mem_cons_self
  · exact (reaches_fenced start run).order newer older τ keys is

/-- Nobody in the way: the check returns at once. -/
theorem decideScan_clear {bare : Table} {scan : Scan} (clear : scan.blockers = []) :
    Store.decideScan bare .keep scan = .pure (.ok ()) := by
  simp [Store.decideScan, clear]
  rfl

/-- Bulk runs and drains of one table, whose every unit writes it. -/
def fanIn : Fleet := { ordersFleet with units := fun _ _ => ["orders"] }

/-- A new lock, announced, and a look at the table. -/
def lookedAt (s : Dest) (a : Token) : Dest :=
  { (s.create ⟨"orders", .lock, some a⟩).note a "orders" .announced with
    saw := fun τ u => if τ = a ∧ u = "orders" then some (s.create ⟨"orders", .lock, some a⟩).objects
      else s.saw τ u }

/-- A bulk run that finds only locks of runs it may share the table with. -/
theorem bulk_passes {a : Token} {s : Dest} (bulk : a.kind = .incremental)
    (shares : ∀ n ∈ (s.create ⟨"orders", .lock, some a⟩).objects, (n.table = "orders" ∧
      n.artifact = .lock) ∧ ∃ peer, n.token = some peer ∧ (a = peer ∨ peerBlocks a peer = false)) :
    ∃ q, (⟨Dest.Drift, Dest.Serve (.run a)⟩ : Env Dest Call Answer).Reaches
      (s, fanIn.program (.run a)) ((lookedAt s a).note a "orders" .passed, q) := by
  have all : ∀ n, n ∈ (s.create ⟨"orders", .lock, some a⟩).objects ↔
      n ∈ (s.create ⟨"orders", .lock, some a⟩).objects ∧ n.table = "orders" ∧
      n.artifact ∈ plainStore.scanKinds := by
    refine fun n => ⟨fun mem => ⟨mem, (shares n mem).1.1, ?_⟩, fun mem => mem.1⟩
    rw [(shares n mem).1.2]
    exact List.mem_cons_self
  have clear : (blockers "orders" ⟨a, none⟩ plainStore.scanKinds _).blockers = [] :=
    blockers_nil fun n mem => (shares n mem).2
  obtain ⟨started, kind, source, nonce⟩ := a
  obtain rfl : kind = .incremental := bulk
  have looks : ∃ k, (⟨Dest.Drift, Dest.Serve (.run ⟨started, .incremental, source, nonce⟩)⟩ :
        Env Dest Call Answer).Reaches
      (s, fanIn.program (.run ⟨started, .incremental, source, nonce⟩))
      (lookedAt s ⟨started, .incremental, source, nonce⟩, (Store.decideScan "orders" .keep (blockers
        "orders" ⟨⟨started, .incremental, source, nonce⟩, none⟩ plainStore.scanKinds _)).bind k) ∧
      ∃ k', k (.ok ()) = .call (.note "orders" .passed) k' :=
    ⟨_, .head (.serve .created) (.head (.serve .noted) (.head (.serve (.listed all)) .refl)), _,
     rfl⟩
  obtain ⟨k, run, k', onward⟩ := looks
  rw [decideScan_clear clear] at run
  refine ⟨k' .done, run.tail ?_⟩
  show Env.Moves _ (_, k (.ok ())) _
  rw [onward]
  exact .serve .noted

def red : Token := ⟨1, .incremental, 7, 0⟩

def blue : Token := ⟨2, .incremental, 8, 0⟩

theorem shares_alone {a : Token} {s : Dest} (bare : s.objects = []) :
    ∀ n ∈ (s.create ⟨"orders", .lock, some a⟩).objects, (n.table = "orders" ∧ n.artifact = .lock) ∧
      ∃ peer, n.token = some peer ∧ (a = peer ∨ peerBlocks a peer = false) := by
  intro n mem
  have only : (s.create ⟨"orders", .lock, some a⟩).objects = [⟨"orders", .lock, some a⟩] :=
    congrArg (List.cons _) bare
  rw [only] at mem
  obtain rfl := List.mem_singleton.mp mem
  exact ⟨⟨rfl, rfl⟩, a, rfl, .inl rfl⟩

/-- A drain opens its row, a unit of it commits, and a bulk run passes its check. -/
theorem one_owner_bulk : ∃ s p, Dest.shared.Reaches (emptyDest, fanIn.program) (s, p) ∧
    (red, "orders") ∈ s.passed ∧ s.events = [.committed nightly ["orders"]] ∧
    (∀ b, red ≠ b → none ≠ some b → fanIn.parent b ≠ some red → peerBlocks red b = true →
      (b, "orders") ∈ s.passed → Claimed s "orders" red ∨ Claimed s "orders" b) ∧
    ∃ n, ["orders"] = (fanIn.units nightly n).reverse := by
  have opens : Dest.shared.Reaches (emptyDest, fanIn.program) (_, _) :=
    reaches_alone (i := .run nightly) (.head (.serve .opened) .refl)
  have unit : (⟨Dest.Drift, Dest.Serve (.unit nightly 0)⟩ : Env Dest Call Answer).Reaches
      (emptyDest.openRows nightly ["orders"], fanIn.program (.unit nightly 0)) (_, _) :=
    .head (.serve (.locked rfl rfl (.inr ⟨rfl, rfl⟩) fun _ _ _ _ live => nomatch live))
      (.head (.serve (.committed (.inl rfl))) .refl)
  obtain ⟨q, bulk⟩ := bulk_passes (a := red) (s := ((emptyDest.openRows nightly ["orders"]).setTx
    (.unit nightly 0) (.live ["orders"])).commit (.unit nightly 0) ["orders"]) rfl
      (shares_alone rfl)
  have commits := opens.trans (Shared.Reaches.process (S := Dest.shared) (i := .unit nightly 0)
    (Function.update_of_ne (by decide) ..) unit)
  have run := commits.trans (Shared.Reaches.process (S := Dest.shared) (i := .run red)
    ((Function.update_of_ne (by decide) ..).trans (Function.update_of_ne (by decide) ..)) bulk)
  obtain ⟨owner, fence⟩ := one_owner fanIn emptyDest_start run
  exact ⟨_, _, run, List.mem_cons_self, rfl,
    fun b ne child parent conflict => owner red b _ ne child parent conflict List.mem_cons_self,
    (fence [] [] nightly ["orders"] rfl).1⟩

/-- Two bulk runs of different sources are both past their checks. -/
theorem fan_in_shares :
    ¬ ∀ (F : Fleet) (s₀ s : Dest) (p : Proc → Client Unit), s₀.Start →
      Dest.shared.Reaches (s₀, F.program) (s, p) →
      ∀ a b t, a ≠ b → F.parent a ≠ some b → F.parent b ≠ some a →
        (a, t) ∈ s.passed → (b, t) ∈ s.passed → Claimed s t a ∨ Claimed s t b := by
  intro holds
  obtain ⟨q, first⟩ := bulk_passes (a := red) (s := emptyDest) rfl (shares_alone rfl)
  obtain ⟨q', second⟩ := bulk_passes (a := blue)
    (s := (lookedAt emptyDest red).note red "orders" .passed)
    rfl fun n mem => by
      obtain rfl | mem := List.mem_cons.mp mem
      · exact ⟨⟨rfl, rfl⟩, blue, rfl, .inl rfl⟩
      · obtain rfl := List.mem_singleton.mp mem
        exact ⟨⟨rfl, rfl⟩, red, rfl, .inr rfl⟩
  have run := (reaches_alone first).trans (Shared.Reaches.process (S := Dest.shared)
    (i := .run blue)
    (Function.update_of_ne (by decide) ..) second)
  have claimed := holds fanIn _ _ _ emptyDest_start run red blue "orders" (by decide) nofun nofun
    (List.mem_cons_of_mem _ List.mem_cons_self) List.mem_cons_self
  exact claimed.elim nofun nofun

end Apitap.Guard
