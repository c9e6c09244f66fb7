import Apitap.Logbased.BinlogPoints

/-!
# A drain in step with the server

What a drain buffers is what the open group changed in tracked tables so far, and the bodies of
its window hold the groups committed since the window began, each once and in order. One event
of a legal log keeps that, and wherever the drain moves its end to is a point where a window
may end, as long as the 32 bits of the event's header say where that is.
-/

namespace Apitap

open Foundation (bind_eq_ok map_eq_ok)

namespace Mysource

variable {β W : Type} [WindowBody W] [DrainBody β W]

/-! ### Landing -/

section landing

/-- The bodies hold these ops of each table, and nothing else. -/
def Held (bodies : Bodies β) (ops : String → List (Nat × StreamOp)) : Prop :=
  ∀ t, HandedTo (bodies.lookup t) (ops t)

/-- The buffered changes, as a server names them. -/
def named (buf : List (String × TxOp)) : List (String × StreamOp) :=
  buf.map fun op => (op.1, op.2.stream)

variable {bodies bodies' : Bodies β} {ops : String → List (Nat × StreamOp)}
variable {layouts : String → Option Layout} {pos : Nat}

theorem Held.empty : Held (∅ : Bodies β) fun _ => [] := by
  intro t
  rw [AList.lookup_empty]
  exact rfl

/-- Landing one change adds it to its own table's, and to no other's. -/
theorem Held.landOp (held : Held bodies ops) {op : String × TxOp}
    (landed : Mysource.landOp layouts pos bodies op = .ok bodies') :
    Held bodies' fun t => ops t ++ Tx.opsOf t ⟨named [op], pos⟩ := by
  obtain ⟨b, built, landed⟩ := bind_eq_ok.mp landed
  obtain ⟨b', stepped, landed⟩ := bind_eq_ok.mp landed
  cases landed
  intro t
  have own := held op.1
  by_cases same : op.1 = t
  · subst same
    have mine : Tx.opsOf op.1 ⟨named [op], pos⟩ = [(pos, op.2.stream)] := by
      simp [Tx.opsOf, named]
    dsimp only
    rw [AList.lookup_insert, mine]
    refine ⟨List.append_ne_nil_of_right_ne_nil _ (List.cons_ne_nil _ _), ?_⟩
    unfold Mysource.bodyOf at built
    split at built
    · rename_i there
      cases built
      rw [there] at own
      obtain ⟨-, l, ran⟩ := own
      refine ⟨l, ?_⟩
      rw [DrainBody.landAll_append, ran]
      simp [Except.bind, DrainBody.landAll, stepped]
    · rename_i absent
      obtain ⟨l, -, rfl⟩ := map_eq_ok.mp built
      rw [absent] at own
      refine ⟨l, ?_⟩
      rw [show ops op.1 = [] from own]
      simp [Except.bind, DrainBody.landAll, stepped]
  · have other : Tx.opsOf t ⟨named [op], pos⟩ = [] := by
      simp [Tx.opsOf, named, same]
    dsimp only
    rw [AList.lookup_insert_ne (Ne.symm same), other, List.append_nil]
    exact held t

/-- Landing buffered changes adds them in order. -/
theorem Held.drainTx (held : Held bodies ops) {buf : List (String × TxOp)}
    (drained : Mysource.drainTx layouts pos buf bodies = .ok bodies') :
    Held bodies' fun t => ops t ++ Tx.opsOf t ⟨named buf, pos⟩ := by
  induction buf generalizing bodies ops with
  | nil =>
      cases drained
      simpa [Tx.opsOf, named] using held
  | cons op buf ih =>
      rw [Mysource.drainTx, List.foldlM_cons] at drained
      obtain ⟨bodies₁, first, rest⟩ := bind_eq_ok.mp drained
      have both := ih (held.landOp first) rest
      have split : ∀ t, Tx.opsOf t ⟨named [op], pos⟩ ++ Tx.opsOf t ⟨named buf, pos⟩ =
          Tx.opsOf t ⟨named (op :: buf), pos⟩ := by
        intro t
        rw [Tx.opsOf, Tx.opsOf, ← List.filterMap_append]
        rfl
      simpa only [List.append_assoc, split] using both

/-- The window a drain seals hands over what its bodies hold. -/
theorem Held.hands {d : Drain β} {txs : List Tx} (held : Held d.bodies fun t => opsOf t txs)
    {startMark : Nat} {o : DrainOutcome W} (ran : d.outcome startMark = .ok o) :
    o.Hands β txs ∧ o.id = ⟨startMark, d.endMark⟩ := by
  obtain ⟨bodies, sealed, rfl⟩ := map_eq_ok.mp ran
  obtain ⟨names, there⟩ := Apitap.Drain.mem_sealBodies sealed
  have keys : bodies.map Prod.fst = d.bodies.keys := by
    rw [names, List.map_map]
    rfl
  have lookup : ∀ t b, (t, b) ∈ d.bodies.entries.map (fun b => (b.1, b.2)) →
      d.bodies.lookup t = some b := by
    intro t b mem
    obtain ⟨entry, there, is⟩ := List.mem_map.mp mem
    cases is
    exact AList.mem_lookup_iff.mpr there
  refine ⟨⟨?_, fun t w mem => ?_, fun t => ?_⟩, rfl⟩
  · rw [keys]
    exact d.bodies.keys_nodup
  · obtain ⟨b, mem, done⟩ := there t w mem
    have handed := held t
    rw [lookup t b mem] at handed
    obtain ⟨-, l, landed⟩ := handed
    exact ⟨l, b, landed, done⟩
  · have handed := held t
    rw [keys]
    constructor
    · intro mem
      obtain ⟨b, is⟩ := Option.isSome_iff_exists.mp (AList.lookup_isSome.mpr mem)
      rw [is] at handed
      exact handed.1
    · intro some_ops
      by_contra absent
      rw [AList.lookup_eq_none.mpr absent] at handed
      exact some_ops handed

/-- Without a body nothing landed. -/
theorem Held.nothing (held : Held bodies ops) (empty : bodies.keys = []) (t : String) :
    ops t = [] := by
  have absent : t ∉ bodies := by
    intro mem
    have mem : t ∈ bodies.keys := mem
    rw [empty] at mem
    cases mem
  have handed := held t
  rwa [AList.lookup_eq_none.mpr absent] at handed

/-- With a body something landed. -/
theorem Held.something (held : Held bodies ops) (some_body : bodies.keys ≠ []) :
    ∃ t, ops t ≠ [] := by
  obtain ⟨t, mem⟩ := List.exists_mem_of_ne_nil _ some_body
  obtain ⟨b, is⟩ := Option.isSome_iff_exists.mp (AList.lookup_isSome.mpr mem)
  have handed := held t
  rw [is] at handed
  exact ⟨t, handed.1⟩

theorem Tx.opsOf_split (t : String) (ops ops' : List (String × StreamOp)) (pos : Nat) :
    Tx.opsOf t ⟨ops ++ ops', pos⟩ = Tx.opsOf t ⟨ops, pos⟩ ++ Tx.opsOf t ⟨ops', pos⟩ :=
  List.filterMap_append

/-- A change is some table's. -/
theorem nil_of_txOpsOf {ops : List (String × StreamOp)} (pos : Nat)
    (nothing : ∀ t, Tx.opsOf t ⟨ops, pos⟩ = []) : ops = [] := by
  cases ops with
  | nil => rfl
  | cons op ops =>
      have here := List.filterMap_eq_nil_iff.mp (nothing op.1) op List.mem_cons_self
      rw [if_pos rfl] at here
      cases here

/-- Groups that changed something changed some table. -/
theorem nil_of_opsOf {groups : List Group} (some_ops : ∀ g ∈ groups, g.ops ≠ [])
    (nothing : ∀ t, opsOf t (groups.map Group.tx) = []) : groups = [] := by
  cases groups with
  | nil => rfl
  | cons g groups =>
      refine absurd (nil_of_txOpsOf g.tx.commit fun t => ?_) (some_ops g List.mem_cons_self)
      have here := nothing t
      rw [List.map_cons, opsOf, List.flatMap_cons, List.append_eq_nil_iff] at here
      exact here.1

theorem opsOf_group (t : String) (m : Master) (ops : List (String × StreamOp)) (stop : Nat) :
    opsOf t ((m.group ops stop).map Group.tx) =
      Tx.opsOf t ⟨ops, m.file * 2 ^ 32 + stop⟩ := by
  unfold Master.group
  split
  · rename_i empty
    rw [empty]
    rfl
  · rw [List.map_singleton, opsOf_singleton]
    rfl

end landing

/-! ### What the drain's own steps do -/

section steps

variable {sess sess' : MySession} {fetch : String → String → Except Error TableSchema}
variable {d d' : Drain β} {p : DrainCall} {stop : Bool}

/-- The session still stands where it stood, with the same table ids. -/
def SameMaps (sess sess' : MySession) : Prop :=
  sess'.file = sess.file ∧ sess'.tracked = sess.tracked ∧ sess'.maps = sess.maps

theorem schemaFor_same {db table q : String} {sc : TableSchema}
    (ran : sess.schemaFor fetch db table q = .ok (sc, sess')) : SameMaps sess sess' := by
  unfold MySession.schemaFor at ran
  split at ran
  · cases ran
    exact ⟨rfl, rfl, rfl⟩
  · obtain ⟨sc', -, is⟩ := map_eq_ok.mp ran
    cases is
    exact ⟨rfl, rfl, rfl⟩

theorem layoutFor_same {q : String} (ran : sess.layoutFor fetch q = .ok sess') :
    SameMaps sess sess' := by
  unfold MySession.layoutFor at ran
  split at ran
  · cases ran
    exact ⟨rfl, rfl, rfl⟩
  · split at ran
    · cases ran
    · obtain ⟨⟨sc, sess₁⟩, first, ran⟩ := bind_eq_ok.mp ran
      have same := schemaFor_same first
      dsimp only at ran
      split at ran
      · cases ran
      · obtain ⟨l, -, is⟩ := bind_eq_ok.mp ran
        cases is
        exact same

theorem tableMap_spec {tableId : Nat} {db table : String} {cols : List ColDef}
    (ran : sess.tableMap fetch tableId db table cols = .ok sess') :
    sess'.file = sess.file ∧ sess'.tracked = sess.tracked ∧
      sess'.maps = Function.update sess.maps tableId
        (if isTracked sess.tracked s!"{db}.{table}" then some s!"{db}.{table}" else none) := by
  unfold MySession.tableMap at ran
  dsimp only at ran
  split at ran
  · rename_i follows
    obtain ⟨⟨sc, sess₁⟩, first, ran⟩ := bind_eq_ok.mp ran
    obtain ⟨file, tracked, maps⟩ := schemaFor_same first
    obtain ⟨-, -, ran⟩ := bind_eq_ok.mp ran
    obtain ⟨sess₂, second, ran⟩ := bind_eq_ok.mp ran
    obtain ⟨file', tracked', maps'⟩ := layoutFor_same second
    cases ran
    rw [if_pos follows]
    refine ⟨file'.trans file, tracked'.trans tracked, ?_⟩
    rw [← maps, ← maps']
  · rename_i other
    cases ran
    rw [if_neg other]
    exact ⟨rfl, rfl, rfl⟩

theorem rows_spec {tableId : Nat} {changes : List TxOp} (ran : d.rows p tableId changes = .ok d') :
    d'.sess = d.sess ∧ d'.bodies = d.bodies ∧ d'.endMark = d.endMark ∧
      d'.txBuf = d.txBuf ++ ((d.sess.maps tableId).map fun q => changes.map (q, ·)).getD [] := by
  unfold Drain.rows at ran
  split at ran
  · rename_i unknown
    cases ran
    rw [unknown]
    exact ⟨rfl, rfl, rfl, (List.append_nil _).symm⟩
  · rename_i q known
    dsimp only at ran
    generalize (if d.txBuf.isEmpty then 0 else d.txBytes) +
      (changes.map fun op => opBytes op.stream).sum = txBytes at ran
    split at ran
    · cases ran
    · cases ran
      rw [known]
      exact ⟨rfl, rfl, rfl, rfl⟩

theorem commit_spec {pos : Nat} (ran : d.commit p pos = .ok (d', stop)) :
    drainTx d.sess.layouts pos d.txBuf d.bodies = .ok d'.bodies ∧ d'.sess = d.sess ∧
      d'.txBuf = [] ∧ d'.endMark = pos := by
  obtain ⟨d₁, landed, ran⟩ := map_eq_ok.mp ran
  obtain ⟨bodies, drained, rfl⟩ := map_eq_ok.mp landed
  dsimp only at ran
  split at ran
  · cases ran
    exact ⟨drained, rfl, rfl, rfl⟩
  · split at ran
    · cases ran
      exact ⟨drained, rfl, rfl, rfl⟩
    · cases ran
      exact ⟨drained, rfl, rfl, rfl⟩

variable [Unicode] {m : Moment} {db head : Text}

theorem truncate_spec {pos : Nat} (ran : d.truncate m pos db head = .ok d')
    (empty : d.txBuf = []) :
    (∃ layouts buf, drainTx layouts pos buf d.bodies = .ok d'.bodies ∧
        named buf = Master.truncated d.sess.tracked db head) ∧
      SameMaps d.sess d'.sess ∧ d'.txBuf = [] ∧ d'.endMark = d.endMark := by
  unfold Drain.truncate at ran
  split at ran
  · rename_i is
    cases ran
    refine ⟨⟨d.sess.layouts, [], rfl, ?_⟩, ⟨rfl, rfl, rfl⟩, empty, rfl⟩
    rw [Master.truncated, is]
    rfl
  · rename_i is
    cases ran
    refine ⟨⟨d.sess.layouts, [], rfl, ?_⟩, ⟨rfl, rfl, rfl⟩, empty, rfl⟩
    rw [Master.truncated, is]
    rfl
  · rename_i q is
    obtain ⟨sess, first, ran⟩ := bind_eq_ok.mp ran
    obtain ⟨bodies, drained, rfl⟩ := map_eq_ok.mp ran
    rw [empty, List.nil_append] at drained
    refine ⟨⟨sess.layouts, [(q, TxOp.truncate)], drained, ?_⟩, layoutFor_same first, rfl, rfl⟩
    rw [Master.truncated, is]
    rfl
  · cases ran

/-- A DDL lands what is buffered and then its own truncate, and ends a window that holds a
body. -/
theorem ddl_spec {logPos : Nat} (ran : d.ddl p m logPos db head = .ok (d', stop)) :
    (∃ layouts buf bodies, drainTx d.sess.layouts (packPos d.sess.file logPos) d.txBuf d.bodies =
          .ok bodies ∧ drainTx layouts (packPos d.sess.file logPos) buf bodies = .ok d'.bodies ∧
        named buf = Master.truncated d.sess.tracked db head) ∧
      d'.sess.file = d.sess.file ∧ d'.sess.tracked = d.sess.tracked ∧ d'.txBuf = [] ∧
      (d'.bodies.keys = [] ∧ d'.endMark = d.endMark ∧ stop = false ∨
        d'.bodies.keys ≠ [] ∧ d'.endMark = packPos d.sess.file logPos ∧ stop = true) := by
  obtain ⟨-, -, ran⟩ := bind_eq_ok.mp ran
  obtain ⟨d₁, landed, ran⟩ := bind_eq_ok.mp ran
  obtain ⟨bodies, drained, rfl⟩ := map_eq_ok.mp landed
  obtain ⟨d₂, truncated, ran⟩ := bind_eq_ok.mp ran
  obtain ⟨⟨layouts, buf, emptied, is⟩, same, buffered, endMark⟩ := truncate_spec truncated rfl
  have ran := Except.ok.inj ran
  split at ran
  · rename_i empty
    cases ran
    refine ⟨⟨layouts, buf, bodies, drained, emptied, is⟩, same.1, same.2.1, buffered,
      .inl ⟨List.isEmpty_iff.mp empty, endMark, rfl⟩⟩
  · rename_i some_body
    cases ran
    refine ⟨⟨layouts, buf, bodies, drained, emptied, is⟩, same.1, same.2.1, buffered,
      .inr ⟨fun empty => some_body (List.isEmpty_iff.mpr empty), rfl, rfl⟩⟩

end steps

/-! ### In step -/

/-- The session stands in the server's file, and knows the tables its statement announced. -/
structure Follows (log : Binlog) (m : Master) (sess : MySession) : Prop where
  file : sess.file = fileName log.stem m.file
  tracked : sess.tracked = log.tracked
  maps : ∀ id q, m.bound.lookup id = some q →
    sess.maps id = if isTracked log.tracked q then some q else none

/-- A drain in step with the server: of what the server committed, `before` left with earlier
windows and `chunk` has landed in this one. -/
structure InStep [Unicode] (log : Binlog) (startMark : Nat) (before : List Group) (m : Master)
    (unread : List Entry) (d : Drain β) (chunk : List Group) (era : Nat) : Prop where
  reads : log.Reads m unread
  follows : Follows log m d.sess
  buffered : named d.txBuf = m.pending
  held : Held d.bodies fun t => opsOf t (chunk.map Group.tx)
  committed : m.committed = before ++ chunk
  era : ∀ g ∈ chunk, g.era = era
  rests : log.Rests d.endMark (before ++ chunk)
  start_le : startMark ≤ d.endMark
  landed_le : ∀ g ∈ chunk, g.tx.commit ≤ d.endMark
  end_file : d.endMark < (m.file + 1) * 2 ^ 32
  end_le : d.endMark ≤ m.mark

/-- A session follows a server between two statements wherever it stands in its file. -/
theorem Follows.between {log : Binlog} {m m' : Master} {sess sess' : MySession}
    (follows : Follows log m sess) (file : m'.file = m.file) (bound : m'.bound = [])
    (same : sess'.file = sess.file ∧ sess'.tracked = sess.tracked) : Follows log m' sess' := by
  refine ⟨?_, ?_, fun id q there => ?_⟩
  · rw [same.1, follows.file, file]
  · rw [same.2, follows.tracked]
  · rw [bound] at there
    cases there

section inStep

variable [Unicode] {log : Binlog} {startMark : Nat} {before chunk chunk' : List Group}
variable {m m' : Master} {e : Entry} {unread : List Entry} {d d' : Drain β} {era era' : Nat}
variable {p : DrainCall} {moment : Moment} {stop : Bool}

/-- The window's end stays, or it moves to where the server is now. -/
inductive Ends (d d' : Drain β) (chunk chunk' : List Group) (m' : Master) : Prop where
  | stay (same : d'.endMark = d.endMark) (chunk : chunk' = chunk)
  | move (here : d'.endMark = m'.mark) (low : m'.pos < 2 ^ 32) (bound : m'.bound = [])
      (pending : m'.pending = []) (landed : ∀ g ∈ chunk', g ∈ chunk ∨ g.tx.commit = m'.mark)

/-- In step an entry later. -/
theorem InStep.next (inStep : InStep log startMark before m (e :: unread) d chunk era)
    (stepped : m.step? log.stem log.tracked e = some m') (follows : Follows log m' d'.sess)
    (buffered : named d'.txBuf = m'.pending)
    (held : Held d'.bodies fun t => opsOf t (chunk'.map Group.tx))
    (committed : m'.committed = before ++ chunk') (era : ∀ g ∈ chunk', g.era = era')
    (ends : Ends d d' chunk chunk' m') :
    InStep log startMark before m' unread d' chunk' era' := by
  have reads := inStep.reads.step stepped
  have passes := Master.passes stepped
  have end_le := inStep.end_le
  have end_file := inStep.end_file
  have further : d.endMark ≤ m'.mark ∧ d.endMark < (m'.file + 1) * 2 ^ 32 := by
    unfold Master.mark at *
    have stop := passes.stop
    obtain ⟨-, pos, further, -⟩ | ⟨-, file, pos⟩ := passes.place
    · omega
    · rw [file, pos]
      omega
  cases ends with
  | stay same is =>
      subst is
      rw [← same] at further
      exact ⟨reads, follows, buffered, held, committed, era, same ▸ inStep.rests,
        same ▸ inStep.start_le, same ▸ inStep.landed_le, further.2, further.1⟩
  | move here low bound pending landed =>
      refine ⟨reads, follows, buffered, held, committed, era, ?_, ?_, fun g mem => ?_, ?_, ?_⟩
      · exact ⟨m', unread, reads, here.symm, low, bound, pending, committed⟩
      · rw [here]
        exact Nat.le_trans inStep.start_le further.1
      · rw [here]
        cases landed g mem with
        | inl old => exact Nat.le_trans (inStep.landed_le g old) further.1
        | inr new => exact Nat.le_of_eq new
      · rw [here]
        unfold Master.mark
        omega
      · exact Nat.le_of_eq here

theorem step?_eq (stepped : m.step? log.stem log.tracked e = some m') :
    { m with pos := e.stop }.write? log.stem log.tracked e.body = some m' := by
  unfold Master.step? at stepped
  split at stepped
  · exact stepped
  · cases stepped

/-- A watermark says where an event ends that ends below 4 GiB. -/
theorem InStep.packPos (inStep : InStep log startMark before m unread d chunk era) {place : Nat}
    (low : place < 2 ^ 32) :
    Mysource.packPos d.sess.file (place % 2 ^ 32) = m.file * 2 ^ 32 + place := by
  have file := inStep.reads.file_lt
  rw [inStep.follows.file, packPos_fileName _ (by omega), Nat.mod_eq_of_lt low]

/-- The group a commit marker ends lands. -/
theorem InStep.land (inStep : InStep log startMark before m (e :: unread) d chunk m.ddls)
    (low : e.stop < 2 ^ 32) {layouts : String → Option Layout} {bodies : Bodies β}
    (drained : drainTx layouts (Mysource.packPos d.sess.file (e.stop % 2 ^ 32)) d.txBuf d.bodies =
      .ok bodies) :
    Held bodies fun t =>
      opsOf t (chunk.map Group.tx) ++ Tx.opsOf t ⟨m.pending, m.file * 2 ^ 32 + e.stop⟩ := by
  have both := inStep.held.drainTx drained
  rwa [inStep.buffered, inStep.packPos low] at both

/-- In step behind a commit marker, the window's end moved to it. -/
theorem InStep.behind (inStep : InStep log startMark before m (e :: unread) d chunk m.ddls)
    (low : e.stop < 2 ^ 32) (stepped : m.step? log.stem log.tracked e = some m')
    {ops : List (String × StreamOp)} (file : m'.file = m.file) (pos : m'.pos = e.stop)
    (bound : m'.bound = []) (pending : m'.pending = [])
    (committed : m'.committed = m.committed ++ m.group ops e.stop)
    (sess : d'.sess.file = d.sess.file ∧ d'.sess.tracked = d.sess.tracked)
    (buffered : d'.txBuf = []) (endMark : d'.endMark = m.file * 2 ^ 32 + e.stop)
    (held : Held d'.bodies fun t =>
      opsOf t (chunk.map Group.tx) ++ Tx.opsOf t ⟨ops, m.file * 2 ^ 32 + e.stop⟩) :
    InStep log startMark before m' unread d' (chunk ++ m.group ops e.stop) m.ddls := by
  have here : m.file * 2 ^ 32 + e.stop = m'.mark := by
    rw [Master.mark, file, pos]
  refine inStep.next stepped (inStep.follows.between file bound sess) ?_ ?_ ?_ ?_
    (.move ?_ ?_ bound pending ?_)
  · rw [buffered, pending]
    rfl
  · simpa only [List.map_append, opsOf_append, opsOf_group] using held
  · rw [committed, inStep.committed, List.append_assoc]
  · intro g mem
    cases List.mem_append.mp mem with
    | inl old => exact inStep.era g old
    | inr new =>
        rw [(m.mem_group ops e.stop new).2]
  · rw [endMark, here]
  · rwa [pos]
  · intro g mem
    refine (List.mem_append.mp mem).imp id fun new => ?_
    rw [(m.mem_group ops e.stop new).2, ← here]
    rfl

/-- In step behind an XID or a COMMIT. -/
theorem InStep.commit (inStep : InStep log startMark before m (e :: unread) d chunk m.ddls)
    (low : e.stop < 2 ^ 32) (stepped : m.step? log.stem log.tracked e = some m')
    (wrote : ({ m with pos := e.stop, bound := [] } : Master).close = some m')
    (ran : d.commit p (Mysource.packPos d.sess.file (e.stop % 2 ^ 32)) = .ok (d', stop)) :
    (∃ chunk', InStep log startMark before m' unread d' chunk' m'.ddls) ∧ d'.txBuf = [] := by
  obtain ⟨drained, sess, buffered, endMark⟩ := commit_spec ran
  rw [inStep.packPos low] at endMark
  have held := inStep.land low drained
  let now : Master := { m with pos := e.stop, bound := [] }
  obtain ⟨ops, opened, is⟩ := Option.map_eq_some_iff.mp wrote
  have pending : m.pending = ops := by
    have opened : m.open = some ops := opened
    rw [Master.pending, opened]
    rfl
  have fields : m'.file = m.file ∧ m'.pos = e.stop ∧ m'.bound = [] ∧ m'.ddls = m.ddls ∧
      m'.committed = m.committed ++ m.group m.pending e.stop := by
    subst is pending
    exact ⟨now.land_file _ _, now.land_pos _ _, now.land_bound _ _, now.land_ddls _ _,
      now.land_committed _ _⟩
  obtain ⟨file, pos, bound, ddls, committed⟩ := fields
  have closed : m'.pending = [] := by
    subst is
    rfl
  refine ⟨⟨chunk ++ m.group m.pending e.stop, ?_⟩, buffered⟩
  rw [ddls]
  exact inStep.behind low stepped file pos bound closed committed
    ⟨congrArg MySession.file sess, congrArg MySession.tracked sess⟩ buffered endMark held

/-- What a turn over the log's next entry keeps; a drain that stops has nothing buffered. -/
def Kept (log : Binlog) (startMark : Nat) (before : List Group) (m : Master)
    (unread : List Entry) (d : Drain β) (stop : Bool) : Prop :=
  ∃ chunk era, InStep log startMark before m unread d chunk era ∧ (stop = false → era = m.ddls) ∧
    (stop = true → d.txBuf = [])

/-- In step behind a DDL. -/
theorem InStep.ddl (inStep : InStep log startMark before m (e :: unread) d chunk m.ddls)
    {db head : Text} (low : d.bodies.keys ≠ [] ∨ d.txBuf ≠ [] ∨
      Master.truncated d.sess.tracked db head ≠ [] → e.stop < 2 ^ 32)
    (stepped : m.step? log.stem log.tracked e = some m')
    (wrote : m' = ({ m with pos := e.stop, bound := [] } : Master).ddl log.tracked db head)
    (ran : d.ddl p moment (e.stop % 2 ^ 32) db head = .ok (d', stop)) :
    Kept log startMark before m' unread d' stop := by
  obtain ⟨⟨layouts, buf, bodies, drained, emptied, is⟩, sessFile, sessTracked, buffered, ends⟩ :=
    ddl_spec ran
  rw [inStep.follows.tracked] at is low
  let now : Master := { m with pos := e.stop, bound := [] }
  let ops := m.pending ++ Master.truncated log.tracked db head
  have fields : m'.file = m.file ∧ m'.pos = e.stop ∧ m'.bound = [] ∧
      m'.committed = m.committed ++ m.group ops e.stop := by
    subst wrote
    exact ⟨now.land_file _ _, now.land_pos _ _, now.land_bound _ _, now.land_committed _ _⟩
  obtain ⟨file, pos, bound, committed⟩ := fields
  have pending : m'.pending = [] := by
    subst wrote
    unfold Master.ddl Master.pending
    cases m.open with
    | none => rfl
    | some ops => rfl
  have some_ops : ∀ g ∈ chunk, g.ops ≠ [] := by
    intro g mem
    apply inStep.reads.some_ops
    rw [inStep.committed]
    exact List.mem_append_right _ mem
  by_cases moves : d.bodies.keys ≠ [] ∨ d.txBuf ≠ [] ∨ Master.truncated log.tracked db head ≠ []
  · have low := low moves
    have held := inStep.land low drained
    rw [inStep.packPos low] at emptied ends
    have held := held.drainTx emptied
    simp only [is, List.append_assoc, ← Tx.opsOf_split] at held
    obtain ⟨empty, -, -⟩ | ⟨-, endMark, rfl⟩ := ends
    · have nothing := fun t => List.append_eq_nil_iff.mp (held.nothing empty t)
      obtain ⟨pending, truncated⟩ := List.append_eq_nil_iff.mp
        (nil_of_txOpsOf _ fun t => (nothing t).2)
      obtain some_body | some_buf | some_truncated := moves
      · obtain ⟨t, something⟩ := inStep.held.something some_body
        exact absurd (nothing t).1 something
      · have buffered := inStep.buffered
        rw [pending, named, List.map_eq_nil_iff] at buffered
        exact absurd buffered some_buf
      · exact absurd truncated some_truncated
    · exact ⟨chunk ++ m.group ops e.stop, m.ddls, inStep.behind low stepped file pos bound pending
        committed ⟨sessFile, sessTracked⟩ buffered endMark held, fun wrong => (by cases wrong),
        fun _ => buffered⟩
  · obtain ⟨empty, stays⟩ := not_or.mp moves
    obtain ⟨nothing, untouched⟩ := not_or.mp stays
    rw [not_not] at empty nothing untouched
    have pending' : m.pending = [] := by
      rw [← inStep.buffered, nothing]
      rfl
    have none_ : ops = [] := by
      change m.pending ++ _ = []
      rw [pending', untouched, List.append_nil]
    have same : d'.bodies = d.bodies := by
      rw [untouched, named, List.map_eq_nil_iff] at is
      rw [nothing] at drained
      rw [is] at emptied
      have first : d.bodies = bodies := Except.ok.inj drained
      have second : bodies = d'.bodies := Except.ok.inj emptied
      rw [← second, ← first]
    have chunk_nil : chunk = [] := nil_of_opsOf some_ops (inStep.held.nothing empty)
    obtain ⟨-, endMark, rfl⟩ | ⟨some_body, -, -⟩ := ends
    · refine ⟨chunk, m'.ddls, inStep.next stepped
        (inStep.follows.between file bound ⟨sessFile, sessTracked⟩) ?_ ?_ ?_ ?_
        (.stay endMark rfl), fun _ => rfl, fun wrong => (by cases wrong)⟩
      · rw [buffered, pending]
        rfl
      · rw [same]
        exact inStep.held
      · rw [committed, none_, Master.group, if_pos rfl, List.append_nil, inStep.committed]
      · intro g mem
        rw [chunk_nil] at mem
        cases mem
    · exact absurd (same ▸ empty) some_body

/-- An event the end does not move for, and that commits nothing. -/
theorem InStep.quiet (inStep : InStep log startMark before m (e :: unread) d chunk m.ddls)
    (stepped : m.step? log.stem log.tracked e = some m') (follows : Follows log m' d'.sess)
    (buffered : named d'.txBuf = m'.pending) (bodies : d'.bodies = d.bodies)
    (endMark : d'.endMark = d.endMark) (committed : m'.committed = m.committed)
    (ddls : m'.ddls = m.ddls) : Kept log startMark before m' unread d' false := by
  refine ⟨chunk, m.ddls, inStep.next stepped follows buffered ?_ ?_ inStep.era (.stay endMark rfl),
    fun _ => ddls.symm, fun wrong => (by cases wrong)⟩
  · rw [bodies]
    exact inStep.held
  · rw [committed, inStep.committed]

/-- In step behind a QUERY event. -/
theorem InStep.query (inStep : InStep log startMark before m (e :: unread) d chunk m.ddls)
    {db sql : Text} (low : d.takes ⟨e.stop % 2 ^ 32, .query db sql⟩ = true → e.stop < 2 ^ 32)
    (stepped : m.step? log.stem log.tracked e = some m')
    (wrote : Master.query log.tracked { m with pos := e.stop, bound := [] } db sql = some m')
    (ran : d.query p moment (e.stop % 2 ^ 32) db sql = .ok (d', stop)) :
    Kept log startMark before m' unread d' stop := by
  simp only [Drain.takes] at low
  unfold Drain.query at ran
  unfold Master.query at wrote
  cases verb : queryVerb (trimStart sql) with
  | begin =>
      simp only [verb] at ran wrote
      cases ran
      cases wrote
      exact inStep.quiet stepped (inStep.follows.between rfl rfl ⟨rfl, rfl⟩) rfl rfl rfl rfl rfl
  | commit =>
      simp only [verb] at ran wrote low
      obtain ⟨⟨chunk', inStep⟩, buffered⟩ := inStep.commit (low trivial) stepped wrote ran
      exact ⟨chunk', m'.ddls, inStep, fun _ => rfl, fun _ => buffered⟩
  | ddl =>
      simp only [verb] at ran wrote low
      refine inStep.ddl (fun moves => low ?_) stepped (Option.some.inj wrote).symm ran
      simpa only [Bool.or_eq_true, Bool.not_eq_true', List.isEmpty_eq_false_iff,
        or_assoc] using moves
  | rollback =>
      simp only [verb] at ran wrote
      obtain ⟨ops, -, rfl⟩ := Option.map_eq_some_iff.mp wrote
      cases ran
      exact inStep.quiet stepped (inStep.follows.between rfl rfl ⟨rfl, rfl⟩) rfl rfl rfl rfl rfl
  | rollbackTo =>
      simp only [verb] at ran wrote
      split at ran
      · split at wrote
        · cases ran
          cases wrote
          exact inStep.quiet stepped (inStep.follows.between rfl rfl ⟨rfl, rfl⟩) inStep.buffered rfl
            rfl rfl rfl
        · cases wrote
      · cases ran
  | dml =>
      simp only [verb] at ran wrote
      split at ran
      · cases ran
        cases wrote
        exact inStep.quiet stepped (inStep.follows.between rfl rfl ⟨rfl, rfl⟩) inStep.buffered rfl
          rfl rfl rfl
      · cases ran
  | other =>
      simp only [verb] at ran wrote
      cases ran
      cases wrote
      exact inStep.quiet stepped (inStep.follows.between rfl rfl ⟨rfl, rfl⟩) inStep.buffered rfl rfl
        rfl rfl

/-- In step behind rows of a table the statement announced. -/
theorem InStep.rows (inStep : InStep log startMark before m (e :: unread) d chunk m.ddls)
    {tableId : Nat} {changes : List TxOp} (stepped : m.step? log.stem log.tracked e = some m')
    (wrote : Master.write? log.stem log.tracked { m with pos := e.stop } (.rows tableId changes) =
      some m')
    (ran : d.rows p tableId changes = .ok d') : Kept log startMark before m' unread d' false := by
  obtain ⟨sess, bodies, endMark, buffered⟩ := rows_spec ran
  obtain ⟨q, announced, wrote⟩ := Option.bind_eq_some_iff.mp wrote
  obtain ⟨ops, opened, rfl⟩ := Option.map_eq_some_iff.mp wrote
  have opened : m.open = some ops := opened
  have maps := inStep.follows.maps tableId q announced
  have before := inStep.buffered
  rw [Master.pending, opened, Option.getD_some] at before
  refine inStep.quiet stepped ⟨?_, ?_, ?_⟩ ?_ bodies endMark rfl rfl
  · rw [sess]
    exact inStep.follows.file
  · rw [sess]
    exact inStep.follows.tracked
  · rw [sess]
    exact inStep.follows.maps
  · rw [buffered, maps, named, List.map_append]
    change named d.txBuf ++ _ = ops ++ _
    rw [before]
    split
    · simp
    · rfl

/-- In step behind a TABLE_MAP. -/
theorem InStep.tableMap (inStep : InStep log startMark before m (e :: unread) d chunk m.ddls)
    {fetch : String → String → Except Error TableSchema} {tableId : Nat} {db table : String}
    {cols : List ColDef} {sess : MySession} (stepped : m.step? log.stem log.tracked e = some m')
    (wrote : Master.write? log.stem log.tracked { m with pos := e.stop }
      (.tableMap tableId db table cols) = some m')
    (ran : d.sess.tableMap fetch tableId db table cols = .ok sess) :
    Kept log startMark before m' unread { d with sess := sess } false := by
  obtain ⟨file, tracked, maps⟩ := tableMap_spec ran
  obtain ⟨ops, -, rfl⟩ := Option.map_eq_some_iff.mp wrote
  refine inStep.quiet stepped ⟨?_, ?_, fun id q there => ?_⟩ inStep.buffered rfl rfl rfl rfl
  · exact file.trans inStep.follows.file
  · exact tracked.trans inStep.follows.tracked
  · rw [maps, inStep.follows.tracked]
    have there : List.lookup id ((tableId, s!"{db}.{table}") :: m.bound) = some q := there
    by_cases same : id = tableId
    · subst same
      rw [List.lookup_cons_self, Option.some.injEq] at there
      rw [Function.update_self, there]
    · rw [List.lookup_cons, beq_false_of_ne same] at there
      rw [Function.update_of_ne same]
      exact inStep.follows.maps id q there

/-- The window's end may move to where the server is, between two groups. -/
theorem InStep.rest (inStep : InStep log startMark before m unread d chunk era)
    (low : m.pos < 2 ^ 32) (bound : m.bound = []) (pending : m.pending = []) :
    InStep log startMark before m unread { d with endMark := m.mark } chunk era where
  reads := inStep.reads
  follows := inStep.follows
  buffered := inStep.buffered
  held := inStep.held
  committed := inStep.committed
  era := inStep.era
  rests := ⟨m, unread, inStep.reads, rfl, low, bound, pending, inStep.committed⟩
  start_le := Nat.le_trans inStep.start_le inStep.end_le
  landed_le g mem := Nat.le_trans (inStep.landed_le g mem) inStep.end_le
  end_file := by
    change m.mark < _
    unfold Master.mark
    omega
  end_le := Nat.le_refl _

/-- In step behind a skippable event, whose end is where the server is. -/
theorem InStep.skip (inStep : InStep log startMark before m unread d chunk m.ddls)
    (low : d.txBuf = [] → 0 < m.pos % 2 ^ 32 →
      d.endMark < Mysource.packPos d.sess.file (m.pos % 2 ^ 32) → m.pos < 2 ^ 32)
    (bound : m.bound = []) (ran : d.skip p (m.pos % 2 ^ 32) = (d', stop)) :
    Kept log startMark before m unread d' stop := by
  unfold Drain.skip at ran
  split at ran
  · rename_i free
    cases ran
    refine ⟨chunk, m.ddls, ?_, fun _ => rfl, fun _ => free.2⟩
    by_cases further : d.endMark < Mysource.packPos d.sess.file (m.pos % 2 ^ 32)
    · have low := low free.2 free.1 further
      rw [max_eq_right (Nat.le_of_lt further), inStep.packPos low]
      apply inStep.rest low bound
      rw [← inStep.buffered, free.2]
      rfl
    · rw [max_eq_left (Nat.le_of_not_lt further)]
      exact inStep
  · cases ran
    exact ⟨chunk, m.ddls, inStep, fun _ => rfl, fun wrong => (by cases wrong)⟩

/-- In step behind any event of the log. -/
theorem InStep.event (inStep : InStep log startMark before m (e :: unread) d chunk m.ddls)
    (low : d.takes e.event = true → e.stop < 2 ^ 32)
    (stepped : m.step? log.stem log.tracked e = some m')
    (ran : d.event p moment e.event = .ok (d', stop)) :
    Kept log startMark before m' unread d' stop := by
  have wrote := step?_eq stepped
  unfold Drain.event at ran
  unfold Entry.event at low ran
  dsimp only at ran
  cases is : e.body with
  | rotate name =>
      simp only [is, Master.write?] at ran wrote
      split at wrote
      · rename_i legal
        cases ran
        cases wrote
        have named : name ≠ [] := by
          rw [legal.2.2, fileName]
          exact List.append_ne_nil_of_right_ne_nil _ (List.cons_ne_nil _ _)
        refine inStep.quiet stepped ⟨?_, inStep.follows.tracked, fun id q there => ?_⟩
          inStep.buffered rfl rfl rfl rfl
        · dsimp only
          rw [if_neg named]
          exact legal.2.2
        · cases there
      · cases wrote
  | formatDescription =>
      simp only [is] at ran wrote
      cases ran
      cases wrote
      exact inStep.quiet stepped (inStep.follows.between rfl rfl ⟨rfl, rfl⟩) inStep.buffered rfl
        rfl rfl rfl
  | transactionPayload =>
      simp only [is] at ran
      cases ran
  | tableMap tableId db table cols =>
      simp only [is] at ran wrote
      obtain ⟨sess, mapped, done⟩ := map_eq_ok.mp ran
      cases done
      exact inStep.tableMap stepped wrote mapped
  | rows tableId changes =>
      simp only [is] at ran wrote
      obtain ⟨d₁, buffered, done⟩ := map_eq_ok.mp ran
      cases done
      exact inStep.rows stepped wrote buffered
  | query db sql =>
      simp only [is] at low ran wrote
      exact inStep.query low stepped wrote ran
  | xid =>
      simp only [is, Drain.takes] at low ran wrote
      obtain ⟨⟨chunk', inStep⟩, buffered⟩ := inStep.commit (low trivial) stepped wrote ran
      exact ⟨chunk', m'.ddls, inStep, fun _ => rfl, fun _ => buffered⟩
  | coded code =>
      simp only [is, Drain.takes, Master.write?] at low ran wrote
      split at ran
      · rename_i opens
        rw [if_pos opens] at wrote
        cases ran
        cases wrote
        exact inStep.quiet stepped (inStep.follows.between rfl rfl ⟨rfl, rfl⟩) rfl rfl rfl rfl rfl
      · rename_i opens
        rw [if_neg opens] at wrote
        split at ran
        · rename_i skips
          rw [if_pos skips] at wrote
          cases wrote
          have still := inStep.quiet stepped (inStep.follows.between rfl rfl ⟨rfl, rfl⟩)
            inStep.buffered rfl rfl rfl rfl
          obtain ⟨chunk', era', inStep', era_is, -⟩ := still
          obtain rfl := era_is rfl
          apply inStep'.skip ?_ rfl (Except.ok.inj ran)
          intro free some_pos further
          apply low
          rw [Bool.eq_false_iff.mpr opens, skips, free]
          exact decide_eq_true ⟨some_pos, further⟩
        · cases ran

end inStep

end Mysource

end Apitap
