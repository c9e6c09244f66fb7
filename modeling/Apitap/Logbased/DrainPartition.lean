import Apitap.Logbased.Stream

/-!
# Windows partition the committed transactions

A drain keeps in step with the server: what it buffers is what the server has
sent of transactions still in progress, and what it has landed, or carries over,
is what the server has committed. One event of a legal stream preserves that,
so a drain does, and so do successive drains on one session, whatever stops each
of them.
-/

namespace Apitap

open Foundation (bind_eq_ok map_eq_ok)

variable {β W : Type} [WindowBody W] [DrainBody β W]
variable {keyCols : String → Option (List String)}

/-- A buffered op and the change it is, by the name of its slot's table. -/
def NamedOp (sess : DrainSession) (op : Nat × StreamOp) (named : String × StreamOp) : Prop :=
  sess.tableOf op.1 = some named.1 ∧ op.2 = named.2

/-- A streamed op and the change it is, both made by one (sub)transaction. -/
def NamedStreamOp (sess : DrainSession) (op : Nat × StreamOp × Nat)
    (named : Nat × String × StreamOp) : Prop :=
  NamedOp sess (op.1, op.2.1) named.2 ∧ op.2.2 = named.1

/-- A later session names every slot the earlier one names, the same way. -/
def Grows (sess sess' : DrainSession) : Prop :=
  ∀ s t, sess.tableOf s = some t → sess'.tableOf s = some t

/-- The session's relation registry, against what the server announced. -/
structure Registered (keyCols : String → Option (List String)) (sess : DrainSession)
    (catalogue : Nat → Option String) : Prop where
  slot : ∀ t s, sess.slotByName t = some s ↔ sess.tableOf s = some t
  flag : ∀ st ∈ sess.slots, st.tracked = (keyCols st.table).isSome
  rels : ∀ o s, sess.rels o = some s → ∃ t, catalogue o = some t ∧ sess.tableOf s = some t
  last : ∀ o s, sess.lastRel = some (o, s) → ∃ t, catalogue o = some t ∧ sess.tableOf s = some t

section registry

variable {sess sess' : DrainSession} {catalogue : Nat → Option String}

theorem Grows.refl (sess : DrainSession) : Grows sess sess := fun _ _ named => named

theorem NamedOp.grow {op : Nat × StreamOp} {named : String × StreamOp} (h : NamedOp sess op named)
    (grows : Grows sess sess') : NamedOp sess' op named := ⟨grows _ _ h.1, h.2⟩

theorem NamedStreamOp.grow {op : Nat × StreamOp × Nat} {named : Nat × String × StreamOp}
    (h : NamedStreamOp sess op named) (grows : Grows sess sess') : NamedStreamOp sess' op named :=
  ⟨h.1.grow grows, h.2⟩

theorem Registered.expecting (expected : String → Option (Nat × String)) :
    Registered keyCols (DrainSession.expecting expected) fun _ => none where
  slot t s := by simp [DrainSession.expecting, DrainSession.tableOf]
  flag st mem := nomatch mem
  rels o s held := nomatch held
  last o s held := nomatch held

/-- Resolving a row event finds the table the server means, and says whether it
is tracked. -/
theorem Registered.tracked (reg : Registered keyCols sess catalogue) {relId : Nat}
    {slot : Option Nat} (found : sess.tracked relId = .ok (slot, sess')) {t : String}
    (announced : catalogue relId = some t) :
    sess' = { sess with lastRel := sess'.lastRel } ∧ Registered keyCols sess' catalogue ∧
      ∃ s, sess.tableOf s = some t ∧ slot = if (keyCols t).isSome then some s else none := by
  rw [DrainSession.tracked] at found
  split at found
  · cases found
  · rename_i s resolved
    have at_s : sess.tableOf s = some t := by
      cases cached : sess.lastRel.bind fun last => if last.1 = relId then some last.2 else none with
      | some s' =>
          rw [cached, Option.some_or, Option.some.injEq] at resolved
          obtain ⟨⟨o, s''⟩, last, same⟩ := Option.bind_eq_some_iff.mp cached
          split at same
          · rename_i at_o
            cases same
            cases at_o
            obtain ⟨t', announced', named⟩ := reg.last _ _ last
            rw [announced] at announced'
            cases announced'
            exact resolved ▸ named
          · cases same
      | none =>
          rw [cached, Option.none_or] at resolved
          obtain ⟨t', announced', named⟩ := reg.rels _ _ resolved
          rw [announced] at announced'
          cases announced'
          exact named
    obtain ⟨st, at_slot, rfl⟩ := Option.map_eq_some_iff.mp at_s
    have flag := reg.flag st (List.mem_of_getElem? at_slot)
    obtain ⟨rfl, rfl⟩ := Prod.mk.inj (Except.ok.inj found)
    refine ⟨rfl, ⟨reg.slot, reg.flag, reg.rels, ?_⟩, s, at_s, ?_⟩
    · rintro o s' last
      cases last
      exact ⟨_, announced, at_s⟩
    · rw [at_slot, Option.map_some, Option.getD_some, flag]

theorem Layout.fromRelation_isSome {r : Relation} {layout : Option Layout}
    (read : Layout.fromRelation r keyCols = .ok layout) :
    layout.isSome = (keyCols r.table).isSome := by
  rw [Layout.fromRelation] at read
  dsimp only at read
  split at read
  · rename_i absent
    have absent : keyCols r.table = none := absent
    cases read
    rw [absent]
    rfl
  · rename_i keys want
    have want : keyCols r.table = some keys := want
    rw [want]
    split at read
    · cases read
    · split at read
      · cases read
      · split at read
        · cases read
        · cases read
          rfl

theorem tableOf_modify {s : Nat} {flag : Bool}
    (slots : sess'.slots = sess.slots.modify s ({ · with tracked := flag })) (i : Nat) :
    sess'.tableOf i = sess.tableOf i := by
  rw [DrainSession.tableOf, DrainSession.tableOf, slots, List.getElem?_modify]
  by_cases at_s : s = i
  · simp [at_s, Function.comp_def]
  · simp [at_s]

theorem tableOf_push {s : RelState} (slots : sess'.slots = sess.slots ++ [s]) (i : Nat) :
    sess'.tableOf i = if i = sess.slots.length then some s.table else sess.tableOf i := by
  rw [DrainSession.tableOf, DrainSession.tableOf, slots]
  by_cases new : i = sess.slots.length
  · simp [new]
  · rw [if_neg new, List.getElem?_append]
    split
    · rfl
    · rw [List.getElem?_eq_none (by simp; omega), List.getElem?_eq_none (by omega)]

theorem tableOf_length (sess : DrainSession) : sess.tableOf sess.slots.length = none := by
  simp [DrainSession.tableOf]

/-- A registry stays one as the session's slots grow. -/
theorem Registered.grow (reg : Registered keyCols sess catalogue) (grows : Grows sess sess')
    (slot : ∀ t s, sess'.slotByName t = some s ↔ sess'.tableOf s = some t)
    (flag : ∀ st ∈ sess'.slots, st.tracked = (keyCols st.table).isSome)
    (rels : sess'.rels = sess.rels) (last : sess'.lastRel = sess.lastRel) :
    Registered keyCols sess' catalogue where
  slot := slot
  flag := flag
  rels o i held := by
    rw [rels] at held
    obtain ⟨t', announced, named⟩ := reg.rels o i held
    exact ⟨t', announced, grows _ _ named⟩
  last o i held := by
    rw [last] at held
    obtain ⟨t', announced, named⟩ := reg.last o i held
    exact ⟨t', announced, grows _ _ named⟩

/-- A table keeps its slot, or gets the next one; no other slot changes. -/
theorem Registered.relSlot (reg : Registered keyCols sess catalogue) {t : String} {flag : Bool}
    {s : Nat} (placed : sess.relSlot t flag = .ok (s, sess')) (want : flag = (keyCols t).isSome) :
    Grows sess sess' ∧ Registered keyCols sess' catalogue ∧ sess'.tableOf s = some t ∧
      (∀ t', t' ≠ t → sess'.slotByName t' = sess.slotByName t') ∧
      (sess.slotByName t = none → s = sess.slots.length) ∧
      sess.slots.length ≤ sess'.slots.length ∧
      sess' = { sess with slots := sess'.slots, slotByName := sess'.slotByName } := by
  rw [DrainSession.relSlot] at placed
  cases known : sess.slotByName t with
  | some s' =>
      simp only [known] at placed
      obtain ⟨rfl, grown⟩ := Prod.mk.inj (Except.ok.inj placed)
      have names : ∀ i, sess'.tableOf i = sess.tableOf i := by
        subst grown
        exact fun i => tableOf_modify rfl i
      have grows : Grows sess sess' := fun i t' named => (names i).trans named
      refine ⟨grows, reg.grow grows ?_ ?_ ?_ ?_, ?_, ?_, ?_, ?_, ?_⟩
      · intro t' i
        rw [names, ← reg.slot, ← grown]
      · subst grown
        intro st mem
        obtain ⟨i, at_i⟩ := List.getElem?_of_mem mem
        rw [List.getElem?_modify] at at_i
        obtain ⟨st', at_i', rfl⟩ := Option.map_eq_some_iff.mp at_i
        by_cases same : s' = i
        · have named := (reg.slot t i).mp (same ▸ known)
          rw [DrainSession.tableOf, at_i', Option.map_some, Option.some.injEq] at named
          simp only [same, if_true, want, named]
        · simp only [same, if_false]
          exact reg.flag st' (List.mem_of_getElem? at_i')
      · rw [← grown]
      · rw [← grown]
      · rw [names]
        exact (reg.slot t s').mp known
      · rw [← grown]
        exact fun _ _ => rfl
      · intro unknown
        cases unknown
      · rw [← grown]
        simp
      · rw [← grown]
  | none =>
      simp only [known] at placed
      split at placed
      · obtain ⟨rfl, grown⟩ := Prod.mk.inj (Except.ok.inj placed)
        have names : ∀ i, sess'.tableOf i =
            if i = sess.slots.length then some t else sess.tableOf i := by
          subst grown
          exact fun i => tableOf_push (s := ⟨t, flag⟩) rfl i
        have grows : Grows sess sess' := by
          intro i t' named
          rw [names, if_neg, named]
          rintro rfl
          rw [tableOf_length] at named
          cases named
        have slots : sess'.slotByName =
            Function.update sess.slotByName t (some sess.slots.length) := by rw [← grown]
        refine ⟨grows, reg.grow grows ?_ ?_ ?_ ?_, ?_, ?_, fun _ => rfl, ?_, ?_⟩
        · intro t' i
          rw [names, slots]
          by_cases same : t' = t
          · subst same
            rw [Function.update_self]
            split
            · rename_i new
              simp [new]
            · rename_i old
              rw [← reg.slot, known]
              simpa [eq_comm] using old
          · rw [Function.update_of_ne same, reg.slot]
            split
            · rename_i new
              rw [new, tableOf_length]
              simpa [eq_comm] using same
            · rfl
        · subst grown
          intro st mem
          cases List.mem_append.mp mem with
          | inl old => exact reg.flag st old
          | inr new =>
              rw [List.mem_singleton.mp new]
              exact want
        · rw [← grown]
        · rw [← grown]
        · rw [names, if_pos rfl]
        · intro t' other
          rw [slots, Function.update_of_ne other]
        · rw [← grown]
          simp
        · rw [← grown]
      · cases placed

/-- Announcing a relation under a slot's table registers it. -/
theorem Registered.registerRel (reg : Registered keyCols sess catalogue) (relId : Nat) {s : Nat}
    {t : String} (named : sess.tableOf s = some t) :
    Registered keyCols { sess.registerRel relId s with lastRel := some (relId, s) }
      (Function.update catalogue relId (some t)) where
  slot := reg.slot
  flag := reg.flag
  rels o i held := by
    simp only [DrainSession.registerRel] at held
    by_cases same : o = relId
    · rw [if_pos same, Option.some.injEq] at held
      rw [same, Function.update_self, ← held]
      exact ⟨t, rfl, named⟩
    · rw [if_neg same] at held
      rw [Function.update_of_ne same]
      split at held
      · cases held
      · exact reg.rels o i held
  last o i held := by
    cases held
    rw [Function.update_self]
    exact ⟨t, rfl, named⟩

end registry

section landing

/-- A table's body has landed exactly these ops, from new, if there are any. -/
def HandedTo : Option β → List (Nat × StreamOp) → Prop
  | none, ops => ops = []
  | some b, ops => ops ≠ [] ∧ ∃ l, DrainBody.landAll (DrainBody.new l) ops = .ok b

/-- A table's body. -/
def bodyOf (sess : DrainSession) (bodies : List (Option β)) (t : String) : Option β :=
  (sess.slotByName t).bind fun s => bodies[s]?.join

/-- The bodies hold these ops of each table, and nothing else. -/
structure Lands (sess : DrainSession) (bodies : List (Option β))
    (ops : String → List (Nat × StreamOp)) : Prop where
  length : bodies.length ≤ sess.slots.length
  handed : ∀ t, HandedTo (bodyOf sess bodies t) (ops t)

theorem Lands.nil (sess : DrainSession) : Lands sess ([] : List (Option β)) fun _ => [] where
  length := Nat.zero_le _
  handed t := by
    have none_there : bodyOf sess ([] : List (Option β)) t = none := by simp [bodyOf]
    rw [none_there, HandedTo]

variable {sess : DrainSession} {bodies bodies' : List (Option β)} {pos : Nat}
variable {landed : String → List (Nat × StreamOp)} {catalogue : Nat → Option String}

omit [WindowBody W] [DrainBody β W] in
private theorem join_resized (bodies : List (Option β)) (n i : Nat) :
    (bodies ++ List.replicate n none)[i]?.join = bodies[i]?.join := by
  rw [List.getElem?_append]
  split
  · rfl
  · rw [List.getElem?_eq_none (l := bodies) (by omega), List.getElem?_replicate]
    split <;> rfl

/-- One op goes to its slot's body, or to a new one; the other bodies stay. -/
theorem flushOp_spec {op : Nat × StreamOp}
    (flushed : flushOp sess pos bodies op = .ok bodies') :
    ∃ b b', (bodies[op.1]?.join = some b ∨
        bodies[op.1]?.join = none ∧ ∃ l, b = DrainBody.new l) ∧
      DrainBody.land b pos op.2 = .ok b' ∧
      bodies'.length = max bodies.length (op.1 + 1) ∧
      ∀ i : Nat, bodies'[i]?.join = if i = op.1 then some b' else bodies[i]?.join := by
  rw [flushOp] at flushed
  have resized := join_resized bodies (op.1 + 1 - bodies.length)
  have length : (bodies ++ List.replicate (op.1 + 1 - bodies.length) none).length =
      max bodies.length (op.1 + 1) := by
    rw [List.length_append, List.length_replicate]
    omega
  generalize bodies ++ List.replicate (op.1 + 1 - bodies.length) none = room
    at flushed resized length
  obtain ⟨b, built, flushed⟩ := bind_eq_ok.mp flushed
  obtain ⟨b', landed, flushed⟩ := bind_eq_ok.mp flushed
  cases flushed
  refine ⟨b, b', ?_, landed, by rw [List.length_set, length], fun i => ?_⟩
  · rw [← resized]
    rw [slotBody] at built
    split at built
    · rename_i b₀ there
      cases built
      rw [there]
      exact .inl rfl
    · rename_i absent
      refine .inr ⟨?_, ?_⟩
      · cases at_op : room[op.1]? with
        | none => rfl
        | some slot =>
            cases slot with
            | none => rfl
            | some b₀ => exact absurd at_op (absent b₀)
      · obtain ⟨l, _, rfl⟩ := map_eq_ok.mp built
        exact ⟨l, rfl⟩
  · rw [← resized, List.getElem?_set]
    by_cases same : op.1 = i
    · rw [if_pos same, if_pos (by omega), if_pos same.symm]
      rfl
    · rw [if_neg same, if_neg (Ne.symm same)]

/-- Landing one op adds it to its own table's, and to no other's. -/
theorem Lands.flushOp (lands : Lands sess bodies landed) (reg : Registered keyCols sess catalogue)
    {op : Nat × StreamOp} {named : String × StreamOp} (name : NamedOp sess op named)
    (flushed : Apitap.flushOp sess pos bodies op = .ok bodies') :
    Lands sess bodies'
      (Function.update landed named.1 (landed named.1 ++ [(pos, named.2)])) := by
  obtain ⟨b, b', found, stepped, length, others⟩ := flushOp_spec flushed
  have at_s := name.1
  have slot := (reg.slot named.1 op.1).mpr at_s
  constructor
  · obtain ⟨st, at_slot, _⟩ := Option.map_eq_some_iff.mp at_s
    have inRange := (List.getElem?_eq_some_iff.mp at_slot).1
    have fits := lands.length
    omega
  · intro t
    by_cases same : t = named.1
    · subst same
      have body : bodyOf sess bodies' named.1 = some b' := by
        rw [bodyOf, slot, Option.bind_some, others, if_pos rfl]
      have before := lands.handed named.1
      rw [bodyOf, slot, Option.bind_some] at before
      rw [body, Function.update_self]
      refine ⟨by simp, ?_⟩
      rw [name.2] at stepped
      rcases found with there | ⟨absent, l, rfl⟩
      · rw [there] at before
        obtain ⟨_, l, ran⟩ := before
        refine ⟨l, ?_⟩
        rw [DrainBody.landAll_append, ran]
        simp [Except.bind, DrainBody.landAll, stepped]
      · rw [absent, HandedTo] at before
        refine ⟨l, ?_⟩
        rw [before]
        simp [Except.bind, DrainBody.landAll, stepped]
    · rw [Function.update_of_ne same]
      have kept : bodyOf sess bodies' t = bodyOf sess bodies t := by
        rw [bodyOf, bodyOf]
        cases at_t : sess.slotByName t with
        | none => rfl
        | some i =>
            rw [Option.bind_some, Option.bind_some, others, if_neg]
            rintro rfl
            have named_t := (reg.slot t op.1).mp at_t
            rw [at_s] at named_t
            exact same (Option.some.inj named_t).symm
      rw [kept]
      exact lands.handed t

/-- Landing a transaction's ops adds them in order, at its commit. -/
theorem Lands.flushOps (lands : Lands sess bodies landed) (reg : Registered keyCols sess catalogue)
    {ops : TxOps} {named : List (String × StreamOp)} (names : List.Forall₂ (NamedOp sess) ops named)
    (flushed : Apitap.flushOps ops sess bodies pos = .ok bodies') :
    Lands sess bodies' fun t => landed t ++ Tx.opsOf t ⟨named, pos⟩ := by
  induction names generalizing bodies landed with
  | nil =>
      cases flushed
      simpa [Tx.opsOf] using lands
  | @cons op name ops named first rest ih =>
      obtain ⟨bodies₁, one, more⟩ := bind_eq_ok.mp flushed
      have lands' := ih (lands.flushOp reg first one) more
      have same : (fun t => Function.update landed name.1 (landed name.1 ++ [(pos, name.2)]) t ++
          Tx.opsOf t ⟨named, pos⟩) = fun t => landed t ++ Tx.opsOf t ⟨name :: named, pos⟩ := by
        funext t
        by_cases at_t : t = name.1
        · subst at_t
          simp [Tx.opsOf]
        · have other : ¬name.1 = t := Ne.symm at_t
          simp [Tx.opsOf, at_t, other]
      exact same ▸ lands'

end landing

/-- The bodies hold these transactions. -/
abbrev LandsTxs (sess : DrainSession) (bodies : List (Option β)) (txs : List Tx) : Prop :=
  Lands sess bodies fun t => opsOf t txs

/-- What a session carries into the next window, as the server committed it. -/
def Carries (sess : DrainSession) (txs : List Tx) : Prop :=
  match sess.carry with
  | none => txs = []
  | some (ops, e) => ∃ named, List.Forall₂ (NamedOp sess) ops named ∧ txs = [⟨named, e⟩]

/-- The session's half of the relation between a drain and the server. -/
structure Keeps (keyCols : String → Option (List String)) (sess : DrainSession)
    (catalogue : Nat → Option String) (streams : Nat → Option (List (Nat × String × StreamOp)))
    (carried : List Tx) : Prop where
  registered : Registered keyCols sess catalogue
  streams : ∀ x, Option.Rel (List.Forall₂ (NamedStreamOp sess)) (sess.streams.lookup x) (streams x)
  carries : Carries sess carried

/-- A drain in step with the server: of what the server committed, `before` left
with earlier windows, `chunk` has landed in this one, `carried` opens the next. -/
structure InStep (keyCols : String → Option (List String)) (d : Drain β) (sv : Server)
    (startLsn : Nat) (before chunk carried : List Tx) : Prop where
  keeps : Keeps keyCols d.sess sv.catalogue sv.streams carried
  lands : LandsTxs d.sess d.bodies chunk
  committed : sv.committed = before ++ chunk ++ carried
  start_le : startLsn ≤ d.endLsn
  landed_le : ∀ tx ∈ chunk, tx.commit ≤ d.endLsn
  lt_carried : ∀ tx ∈ carried, d.endLsn < tx.commit ∧ tx.commit ≤ sv.horizon
  end_le : d.endLsn ≤ sv.horizon

/-- The transaction and the block the drain is in the middle of. -/
structure Amid (d : Drain β) (sv : Server) : Prop where
  block : d.inStream = sv.block
  buffered : List.Forall₂ (NamedOp d.sess) d.txBuf (sv.tx.getD [])

theorem opsOf_append (t : String) (txs txs' : List Tx) :
    opsOf t (txs ++ txs') = opsOf t txs ++ opsOf t txs' := List.flatMap_append

theorem opsOf_singleton (t : String) (tx : Tx) : opsOf t [tx] = Tx.opsOf t tx := by
  simp [opsOf]

section keeps

variable {sess : DrainSession} {catalogue : Nat → Option String}
variable {streams : Nat → Option (List (Nat × String × StreamOp))} {carried : List Tx}

theorem Keeps.none_carried (keeps : Keeps keyCols sess catalogue streams []) :
    sess.carry = none := by
  have carries := keeps.carries
  rw [Carries] at carries
  split at carries
  · assumption
  · obtain ⟨named, -, none_there⟩ := carries
    cases none_there

/-- Rewriting one streamed transaction on both sides. -/
theorem Keeps.putStream (keeps : Keeps keyCols sess catalogue streams carried) {x n : Nat}
    {ops : List (Nat × StreamOp × Nat)} {sent : List (Nat × String × StreamOp)}
    (named : List.Forall₂ (NamedStreamOp sess) ops sent) :
    Keeps keyCols { sess with streams := sess.streams.insert x ops, streamBytes := n } catalogue
      (Function.update streams x (some sent)) carried where
  registered := ⟨keeps.registered.slot, keeps.registered.flag, keeps.registered.rels,
    keeps.registered.last⟩
  streams y := by
    by_cases same : y = x
    · subst same
      rw [AList.lookup_insert, Function.update_self]
      exact .some named
    · rw [AList.lookup_insert_ne same, Function.update_of_ne same]
      exact keeps.streams y
  carries := keeps.carries

/-- Dropping one streamed transaction on both sides. -/
theorem Keeps.eraseStream (keeps : Keeps keyCols sess catalogue streams carried) (x n : Nat) :
    Keeps keyCols { sess with streams := sess.streams.erase x, streamBytes := n } catalogue
      (Function.update streams x none) carried where
  registered := ⟨keeps.registered.slot, keeps.registered.flag, keeps.registered.rels,
    keeps.registered.last⟩
  streams y := by
    by_cases same : y = x
    · subst same
      rw [AList.lookup_erase, Function.update_self]
      exact .none
    · rw [AList.lookup_erase_ne same, Function.update_of_ne same]
      exact keeps.streams y
  carries := keeps.carries

/-- Dropping one (sub)transaction on both sides. -/
theorem Keeps.abort (keeps : Keeps keyCols sess catalogue streams carried) (xid subXid : Nat) :
    Keeps keyCols (Drain.abort sess xid subXid) catalogue
      (Function.update streams xid (if subXid = xid then none
        else (streams xid).map fun sent => sent.filter fun op => op.1 ≠ subXid)) carried := by
  rw [Drain.abort]
  have rel := keeps.streams xid
  cases opened : streams xid with
  | none =>
      rw [opened] at rel
      cases held : sess.streams.lookup xid with
      | none =>
          have same : Function.update streams xid none = streams := by
            rw [← opened, Function.update_eq_self]
          simpa [same] using keeps
      | some ops =>
          rw [held] at rel
          cases rel
  | some sent =>
      cases held : sess.streams.lookup xid with
      | none =>
          rw [opened, held] at rel
          cases rel
      | some ops =>
          rw [opened, held] at rel
          cases rel with
          | some named =>
              by_cases whole : subXid = xid
              · simpa [whole] using keeps.eraseStream xid _
              · have left : List.Forall₂ (NamedStreamOp sess)
                    (ops.filter fun o => o.2.2 ≠ subXid) (sent.filter fun op => op.1 ≠ subXid) := by
                  refine List.rel_filter (fun o op name => ?_) named
                  simp [name.2]
                simpa [whole] using keeps.putStream (n := _) left

/-- What the session has of a streamed transaction is what the server sent. -/
theorem Keeps.stream (keeps : Keeps keyCols sess catalogue streams carried) {x : Nat}
    {sent : List (Nat × String × StreamOp)} (opened : streams x = some sent) :
    ∃ ops, sess.streams.lookup x = some ops ∧ List.Forall₂ (NamedStreamOp sess) ops sent := by
  have rel := keeps.streams x
  rw [opened] at rel
  generalize sess.streams.lookup x = held at rel
  cases rel with
  | some named => exact ⟨_, rfl, named⟩

end keeps

section step

variable {p : DrainCall} {m : Moment} {d d' : Drain β} {sv sv' : Server} {stop : Bool}
variable {startLsn : Nat} {before chunk : List Tx}

/-- An event that lands nothing and commits nothing. -/
theorem InStep.quiet (inStep : InStep keyCols d sv startLsn before chunk [])
    (keeps : Keeps keyCols d'.sess sv'.catalogue sv'.streams [])
    (slots : d'.sess.slots.length = d.sess.slots.length)
    (names : d'.sess.slotByName = d.sess.slotByName)
    (bodies : d'.bodies = d.bodies) (endLsn : d'.endLsn = d.endLsn)
    (committed : sv'.committed = sv.committed) (horizon : sv.horizon ≤ sv'.horizon) :
    InStep keyCols d' sv' startLsn before chunk [] where
  keeps := keeps
  lands := by
    refine ⟨by rw [bodies, slots]; exact inStep.lands.length, fun t => ?_⟩
    rw [bodyOf, names, bodies]
    exact inStep.lands.handed t
  committed := committed.trans inStep.committed
  start_le := endLsn ▸ inStep.start_le
  landed_le := endLsn ▸ inStep.landed_le
  lt_carried := nofun
  end_le := endLsn ▸ le_trans inStep.end_le horizon

/-- Buffering one change of a tracked table. -/
theorem InStep.bufferOp (inStep : InStep keyCols d sv startLsn before chunk []) (amid : Amid d sv)
    {s : Nat} {t : String} {op : StreamOp} {sub sub' : Option Nat} {weighed : Bool}
    (named : ∀ u, sub = some u → sub' = some u)
    (at_s : d.sess.tableOf s = some t) (legal : sv.change sub [(t, op)] = some sv')
    (ran : d.bufferOp p sub' weighed s op = .ok d') :
    InStep keyCols d' sv' startLsn before chunk [] ∧ Amid d' sv' := by
  have block := amid.block
  rw [Drain.bufferOp] at ran
  rw [Server.change, ← block] at legal
  cases inside : d.inStream with
  | some x =>
      simp only [inside] at ran legal
      obtain ⟨u, tagged, legal⟩ := Option.bind_eq_some_iff.mp legal
      obtain ⟨sent, opened, rfl⟩ := Option.map_eq_some_iff.mp legal
      obtain ⟨ops, held, names⟩ := inStep.keeps.stream opened
      split at ran
      · cases ran
      · rw [DrainSession.openStream, held, named u tagged] at ran
        cases ran
        have names' : List.Forall₂ (NamedStreamOp d.sess) (ops ++ [(s, op, u)])
            (sent ++ [(u, t, op)]) := List.rel_append names (.cons ⟨⟨at_s, rfl⟩, rfl⟩ .nil)
        exact ⟨inStep.quiet (inStep.keeps.putStream names') rfl rfl rfl rfl rfl le_rfl,
          ⟨rfl, amid.buffered⟩⟩
  | none =>
      simp only [inside] at ran legal
      obtain ⟨sent, opened, rfl⟩ := Option.map_eq_some_iff.mp legal
      split at ran
      · cases ran
      · cases ran
        have buffered := amid.buffered
        rw [opened] at buffered
        exact ⟨inStep.quiet inStep.keeps rfl rfl rfl rfl rfl le_rfl,
          ⟨rfl, List.rel_append buffered (.cons ⟨at_s, rfl⟩ .nil)⟩⟩

/-- Row changes split: one table's after another's. -/
theorem Server.change_append {sub : Option Nat} {ops ops' : List (String × StreamOp)} :
    sv.change sub (ops ++ ops') = (sv.change sub ops).bind fun sv => sv.change sub ops' := by
  simp only [Server.change]
  cases inside : sv.block with
  | some x =>
      cases sub with
      | none => rfl
      | some u => cases opened : sv.streams x <;> simp [opened]
  | none => cases sv.tx <;> simp

/-- No row changes, where row changes are legal, change nothing. -/
theorem Server.change_nil {sub : Option Nat} {ops : List (String × StreamOp)}
    (legal : sv.change sub ops = some sv') : sv.change sub [] = some sv := by
  rw [Server.change] at legal ⊢
  cases inside : sv.block with
  | some x =>
      simp only [inside] at legal ⊢
      obtain ⟨u, rfl, legal⟩ := Option.bind_eq_some_iff.mp legal
      obtain ⟨sent, opened, rfl⟩ := Option.map_eq_some_iff.mp legal
      rw [Option.bind_some, opened, Option.map_some, List.map_nil, List.append_nil, ← opened,
        Function.update_eq_self]
      rw [← inside]
  | none =>
      simp only [inside] at legal ⊢
      obtain ⟨sent, opened, rfl⟩ := Option.map_eq_some_iff.mp legal
      rw [opened, Option.map_some, List.append_nil, ← opened, ← inside]

theorem Server.change_catalogue {sub : Option Nat} {ops : List (String × StreamOp)}
    (legal : sv.change sub ops = some sv') : sv'.catalogue = sv.catalogue := by
  rw [Server.change] at legal
  split at legal
  · obtain ⟨u, _, legal⟩ := Option.bind_eq_some_iff.mp legal
    obtain ⟨sent, _, rfl⟩ := Option.map_eq_some_iff.mp legal
    rfl
  · obtain ⟨sent, _, rfl⟩ := Option.map_eq_some_iff.mp legal
    rfl

/-- The changes of one relation that are a tracked table's. -/
theorem Server.resolve_cons {c : Nat × StreamOp} {cs : List (Nat × StreamOp)}
    {ops : List (String × StreamOp)} (resolved : sv.resolve keyCols (c :: cs) = some ops) :
    ∃ t rest, sv.catalogue c.1 = some t ∧ sv.resolve keyCols cs = some rest ∧
      ops = (if (keyCols t).isSome then [(t, c.2)] else []) ++ rest := by
  rw [Server.resolve, List.mapM_cons] at resolved
  obtain ⟨all, collected, rfl⟩ := Option.map_eq_some_iff.mp resolved
  obtain ⟨first, announced, collected⟩ := Option.bind_eq_some_iff.mp collected
  obtain ⟨rest, others, collected⟩ := Option.bind_eq_some_iff.mp collected
  obtain ⟨t, at_t, rfl⟩ := Option.map_eq_some_iff.mp announced
  cases collected
  refine ⟨t, rest.filter fun c => (keyCols c.1).isSome, at_t, ?_, ?_⟩
  · rw [Server.resolve, others]
    rfl
  · rw [List.filter_cons]
    split <;> rfl

/-- One relation's row change, tracked or not. -/
theorem InStep.rowChange (inStep : InStep keyCols d sv startLsn before chunk [])
    (amid : Amid d sv) {relId : Nat} {t : String} {op : StreamOp} {sub sub' : Option Nat}
    {weighed : Bool} (named : ∀ u, sub = some u → sub' = some u)
    (announced : sv.catalogue relId = some t)
    (legal : sv.change sub (if (keyCols t).isSome then [(t, op)] else []) = some sv')
    (ran : d.rowChange p sub' weighed relId op = .ok d') :
    InStep keyCols d' sv' startLsn before chunk [] ∧ Amid d' sv' := by
  obtain ⟨⟨slot, sess⟩, found, ran⟩ := bind_eq_ok.mp ran
  obtain ⟨same, reg, s, at_s, rfl⟩ := inStep.keeps.registered.tracked found announced
  dsimp only at same reg ran
  generalize sess.lastRel = last at same
  subst same
  have inStep' : InStep keyCols { d with sess := { d.sess with lastRel := last } } sv
    startLsn before
      chunk [] := inStep.quiet ⟨reg, inStep.keeps.streams, inStep.keeps.carries⟩ rfl rfl rfl
        rfl rfl le_rfl
  have amid' : Amid { d with sess := { d.sess with lastRel := last } } sv :=
    ⟨amid.block, amid.buffered⟩
  split at ran
  · rename_i s' want
    split at want
    · rename_i isTracked
      cases want
      rw [if_pos isTracked] at legal
      exact inStep'.bufferOp amid' named at_s legal ran
    · cases want
  · rename_i want
    split at want
    · cases want
    · rename_i untracked
      rw [if_neg untracked, Server.change_nil legal] at legal
      cases legal
      cases ran
      exact ⟨inStep', amid'⟩

/-- A message's row changes. -/
theorem InStep.rowChanges {cs : List (Nat × StreamOp)} {sub sub' : Option Nat} {weighed : Bool}
    (named : ∀ u, sub = some u → sub' = some u)
    (inStep : InStep keyCols d sv startLsn before chunk []) (amid : Amid d sv)
    {ops : List (String × StreamOp)} (resolved : sv.resolve keyCols cs = some ops)
    (legal : sv.change sub ops = some sv')
    (ran : cs.foldlM (fun d c => d.rowChange p sub' weighed c.1 c.2) d = .ok d') :
    InStep keyCols d' sv' startLsn before chunk [] ∧ Amid d' sv' := by
  induction cs generalizing d sv ops with
  | nil =>
      have none_left : ops = [] := by simpa [Server.resolve] using resolved.symm
      rw [none_left, Server.change_nil legal] at legal
      cases legal
      cases ran
      exact ⟨inStep, amid⟩
  | cons c cs ih =>
      obtain ⟨t, rest, announced, resolved', rfl⟩ := Server.resolve_cons resolved
      obtain ⟨d₁, one, more⟩ := bind_eq_ok.mp ran
      rw [Server.change_append] at legal
      obtain ⟨sv₁, first, legal⟩ := Option.bind_eq_some_iff.mp legal
      obtain ⟨inStep₁, amid₁⟩ := inStep.rowChange amid named announced first one
      refine ih inStep₁ amid₁ ?_ legal more
      rw [Server.resolve, Server.change_catalogue first]
      exact resolved'

theorem Carries.grow {sess sess' : DrainSession} {txs : List Tx} (carries : Carries sess txs)
    (grows : Grows sess sess') (same : sess'.carry = sess.carry) : Carries sess' txs := by
  rw [Carries, same] at *
  split
  · rename_i none_there
    rw [none_there] at carries
    exact carries
  · rename_i ops e there
    rw [there] at carries
    obtain ⟨named, names, rfl⟩ := carries
    exact ⟨named, names.imp fun _ _ name => name.grow grows, rfl⟩

/-- A new slot has no body yet, so placing a table leaves every body where it was. -/
theorem Registered.bodyOf_relSlot {sess sess' : DrainSession} {catalogue : Nat → Option String}
    {t : String} {flag : Bool} {s : Nat} {bodies : List (Option β)}
    (reg : Registered keyCols sess catalogue) (placed : sess.relSlot t flag = .ok (s, sess'))
    (want : flag = (keyCols t).isSome) (fits : bodies.length ≤ sess.slots.length) (t' : String) :
    bodyOf sess' bodies t' = bodyOf sess bodies t' := by
  obtain ⟨grows, reg', at_s, others, fresh, -, -⟩ := reg.relSlot placed want
  rw [bodyOf, bodyOf]
  cases known : sess.slotByName t' with
  | some i => rw [(reg'.slot t' i).mpr (grows i t' ((reg.slot t' i).mp known))]
  | none =>
      by_cases same : t' = t
      · subst same
        rw [(reg'.slot t' s).mpr at_s, Option.bind_some, fresh known,
          List.getElem?_eq_none fits]
        rfl
      · rw [others t' same, known]

/-- A Relation message. -/
theorem InStep.relation (inStep : InStep keyCols d sv startLsn before chunk [])
    (amid : Amid d sv) {r : Relation} (keys : p.keyCols = keyCols)
    (ran : d.relation p r = .ok d') :
    InStep keyCols d'
        { sv with catalogue := Function.update sv.catalogue r.relId (some r.table) }
        startLsn before chunk [] ∧
      Amid d' { sv with catalogue := Function.update sv.catalogue r.relId (some r.table) } := by
  obtain ⟨layout, read, ran⟩ := bind_eq_ok.mp ran
  obtain ⟨_, -, ran⟩ := bind_eq_ok.mp ran
  obtain ⟨⟨s, sess⟩, placed, ran⟩ := bind_eq_ok.mp ran
  rw [keys] at read
  have want := Layout.fromRelation_isSome read
  have reg := inStep.keeps.registered
  obtain ⟨grows, reg', at_s, -, -, longer, same⟩ := reg.relSlot (t := r.table) placed want
  have bodies := reg.bodyOf_relSlot (t := r.table) placed want inStep.lands.length
  have announced := reg'.registerRel r.relId at_s
  have carry : sess.carry = d.sess.carry := by rw [same]
  have streams : sess.streams = d.sess.streams := by rw [same]
  cases ran
  refine ⟨⟨⟨?_, ?_, ?_⟩, ⟨?_, ?_⟩, inStep.committed, inStep.start_le, inStep.landed_le, nofun,
    inStep.end_le⟩, amid.block, ?_⟩
  · exact ⟨announced.slot, announced.flag, announced.rels, announced.last⟩
  · intro x
    have rel := inStep.keeps.streams x
    rw [← streams] at rel
    change Option.Rel _ (sess.streams.lookup x) (sv.streams x)
    generalize sess.streams.lookup x = held, sv.streams x = sent at rel ⊢
    cases rel with
    | none => exact .none
    | some named => exact .some (named.imp fun _ _ name => name.grow grows)
  · exact inStep.keeps.carries.grow grows carry
  · exact le_trans inStep.lands.length longer
  · intro t
    exact (bodies t).symm ▸ inStep.lands.handed t
  · exact amid.buffered.imp fun _ _ name => name.grow grows

/-- Committing a transaction whose ops are the ones the server sent: it lands
here, or opens the next window. -/
theorem InStep.commit (inStep : InStep keyCols d sv startLsn before chunk [])
    {ops : TxOps} {named : List (String × StreamOp)} {n e : Nat}
    (names : List.Forall₂ (NamedOp d.sess) ops named) (legal : sv.commit named e = some sv')
    (ran : d.commit p ops n e = .ok (d', stop)) :
    (∃ chunk' carried, InStep keyCols d' sv' startLsn before chunk' carried ∧
      (stop = false → carried = [])) ∧
      d'.sess.slots = d.sess.slots ∧ d'.txBuf = d.txBuf ∧ d'.inStream = d.inStream ∧
      sv'.tx = sv.tx ∧ sv'.block = sv.block := by
  rw [Server.commit] at legal
  split at legal
  · rename_i later
    cases legal
    have ends := inStep.end_le
    have committed := inStep.committed
    rw [List.append_nil] at committed
    rw [Drain.commit] at ran
    split at ran
    · obtain ⟨rfl, rfl⟩ := Prod.mk.inj (Except.ok.inj ran)
      refine ⟨⟨chunk, [⟨named, e⟩], ⟨⟨⟨?_, ?_, ?_, ?_⟩, inStep.keeps.streams, ⟨named, names, rfl⟩⟩,
        ⟨inStep.lands.length, inStep.lands.handed⟩, ?_, inStep.start_le, inStep.landed_le, ?_, ?_⟩,
        fun is => (by cases is)⟩, rfl, rfl, rfl, rfl, rfl⟩
      · exact inStep.keeps.registered.slot
      · exact inStep.keeps.registered.flag
      · exact inStep.keeps.registered.rels
      · exact inStep.keeps.registered.last
      · rw [committed]
      · rintro tx mem
        rw [List.mem_singleton.mp mem]
        exact ⟨lt_of_le_of_lt ends later, le_rfl⟩
      · exact le_trans ends (Nat.le_of_lt later)
    · obtain ⟨bodies, flushed, ran⟩ := map_eq_ok.mp ran
      have lands := inStep.lands.flushOps inStep.keeps.registered names flushed
      have landed : InStep keyCols
          { d with
            bodies := bodies, bufBytes := d.bufBytes + n, endLsn := e, hitBudget := d'.hitBudget }
          { sv with committed := sv.committed ++ [⟨named, e⟩], horizon := e }
          startLsn before (chunk ++ [⟨named, e⟩]) [] := by
        refine ⟨inStep.keeps, ⟨lands.length, fun t => ?_⟩, ?_, ?_, ?_, fun tx mem =>
          (by cases mem), le_rfl⟩
        · rw [opsOf_append, opsOf_singleton]
          exact lands.handed t
        · rw [committed, List.append_nil, List.append_assoc]
        · exact le_trans inStep.start_le (le_trans ends (Nat.le_of_lt later))
        · intro tx mem
          cases List.mem_append.mp mem with
          | inl old => exact le_trans (inStep.landed_le tx old) (le_trans ends (Nat.le_of_lt later))
          | inr new =>
              rw [List.mem_singleton.mp new]
      dsimp only at ran
      split at ran
      · obtain ⟨rfl, rfl⟩ := Prod.mk.inj ran
        exact ⟨⟨_, [], landed, fun _ => rfl⟩, rfl, rfl, rfl, rfl, rfl⟩
      · split at ran
        · obtain ⟨rfl, rfl⟩ := Prod.mk.inj ran
          exact ⟨⟨_, [], landed, fun _ => rfl⟩, rfl, rfl, rfl, rfl, rfl⟩
        · obtain ⟨rfl, rfl⟩ := Prod.mk.inj ran
          exact ⟨⟨_, [], landed, fun _ => rfl⟩, rfl, rfl, rfl, rfl, rfl⟩
  · cases legal

/-- What an event leaves a drain with: in step, and between transactions when it
stops the drain. -/
def KeptUp (keyCols : String → Option (List String)) (d : Drain β) (sv : Server) (startLsn : Nat)
    (before : List Tx) (stop : Bool) : Prop :=
  Amid d sv ∧ ∃ chunk carried, InStep keyCols d sv startLsn before chunk carried ∧
    (stop = false → carried = []) ∧ (stop = true → d.idle = true)

theorem Drain.idle_iff {d : Drain β} : d.idle = true ↔ d.txBuf = [] ∧ d.inStream = none := by
  simp [Drain.idle]

/-- A transaction's commit, where the drain is between the others. -/
theorem InStep.committed_keptUp (inStep : InStep keyCols d sv startLsn before chunk [])
    (alone : d.txBuf = [] ∧ d.inStream = none) (between : sv.tx = none ∧ sv.block = none)
    {ops : TxOps} {named : List (String × StreamOp)} {n e : Nat}
    (names : List.Forall₂ (NamedOp d.sess) ops named) (legal : sv.commit named e = some sv')
    (ran : d.commit p ops n e = .ok (d', stop)) :
    KeptUp keyCols d' sv' startLsn before stop := by
  obtain ⟨⟨chunk', carried, after, goesOn⟩, -, txBuf, inStream, tx, block⟩ :=
    inStep.commit names legal ran
  refine ⟨⟨?_, ?_⟩, chunk', carried, after, goesOn, fun _ => ?_⟩
  · rw [inStream, block, alone.2, between.2]
  · rw [txBuf, tx, alone.1, between.1]
    exact .nil
  · rw [Drain.idle_iff, txBuf, inStream]
    exact alone

/-- An event that stops nothing and commits nothing. -/
theorem InStep.keptUp (inStep : InStep keyCols d sv startLsn before chunk []) (amid : Amid d sv) :
    KeptUp keyCols d sv startLsn before false :=
  ⟨amid, chunk, [], inStep, fun _ => rfl, nofun⟩

theorem Server.between_iff : sv.between = true ↔ sv.tx = none ∧ sv.block = none := by
  simp [Server.between]

theorem Amid.alone (amid : Amid d sv) (between : sv.tx = none ∧ sv.block = none) :
    d.txBuf = [] ∧ d.inStream = none := by
  refine ⟨?_, amid.block.trans between.2⟩
  have buffered := amid.buffered
  rw [between.1] at buffered
  exact List.forall₂_nil_right_iff.mp buffered

private theorem foldlM_one {ε σ α : Type} {f : σ → α → Except ε σ} {s : σ} {a : α} :
    [a].foldlM f s = f s a := by
  rw [List.foldlM_cons]
  cases f s a <;> rfl

/-- A message's row changes. -/
theorem InStep.changes (inStep : InStep keyCols d sv startLsn before chunk []) (amid : Amid d sv)
    {cs : List (Nat × StreamOp)} {sub x : Option Nat} {weighed : Bool}
    (legal : ((sv.resolve keyCols cs).bind fun ops => sv.change sub ops) = some sv')
    (ran : cs.foldlM (fun (d : Drain β) c => d.rowChange p (sub.or x) weighed c.1 c.2) d =
      .ok d') : KeptUp keyCols d' sv' startLsn before false := by
  obtain ⟨ops, resolved, legal⟩ := Option.bind_eq_some_iff.mp legal
  obtain ⟨inStep', amid'⟩ :=
    InStep.rowChanges (fun u tagged => by rw [tagged, Option.some_or]) inStep amid
      resolved legal ran
  exact inStep'.keptUp amid'

/-! One lemma a message. -/

section Messages

variable {sub : Option Nat}

theorem InStep.begin (inStep : InStep keyCols d sv startLsn before chunk []) (amid : Amid d sv)
    (legal : sv.step? keyCols (.xlogData .begin sub) = some sv')
    (ran : d.message p .begin sub = .ok (d', stop)) :
    KeptUp keyCols d' sv' startLsn before stop := by
  rw [Server.step?] at legal
  split at legal
  · cases legal
    cases ran
    exact InStep.keptUp (inStep.quiet inStep.keeps rfl rfl rfl rfl rfl le_rfl)
      ⟨amid.block, .nil⟩
  · cases legal

theorem InStep.commitMessage (inStep : InStep keyCols d sv startLsn before chunk [])
    (amid : Amid d sv) {e : Nat} (legal : sv.step? keyCols (.xlogData (.commit e) sub) = some sv')
    (ran : d.message p (.commit e) sub = .ok (d', stop)) :
    KeptUp keyCols d' sv' startLsn before stop := by
  rw [Server.step?] at legal
  split at legal
  · rename_i outside
    obtain ⟨ops, sent, legal⟩ := Option.bind_eq_some_iff.mp legal
    have block : sv.block = none := Option.isNone_iff_eq_none.mp outside
    have names := amid.buffered
    rw [sent] at names
    have inStep' : InStep keyCols { d with txBuf := [], txBytes := 0 } { sv with tx := none }
        startLsn before chunk [] := inStep.quiet inStep.keeps rfl rfl rfl rfl rfl le_rfl
    exact inStep'.committed_keptUp ⟨rfl, amid.block.trans block⟩ ⟨rfl, block⟩ names legal ran
  · cases legal

theorem InStep.streamStart (inStep : InStep keyCols d sv startLsn before chunk [])
    (amid : Amid d sv) {xid : Nat}
    (legal : sv.step? keyCols (.xlogData (.streamStart xid) sub) = some sv')
    (ran : d.message p (.streamStart xid) sub = .ok (d', stop)) :
    KeptUp keyCols d' sv' startLsn before stop := by
  rw [Server.step?] at legal
  split at legal
  · cases legal
    cases ran
    have named : List.Forall₂ (NamedStreamOp d.sess) ((d.sess.streams.lookup xid).getD [])
        ((sv.streams xid).getD []) := by
      have rel := inStep.keeps.streams xid
      generalize d.sess.streams.lookup xid = held, sv.streams xid = sent at rel
      cases rel with
      | none => exact .nil
      | some named => exact named
    exact InStep.keptUp
      (inStep.quiet (inStep.keeps.putStream named) rfl rfl rfl rfl rfl le_rfl)
      ⟨rfl, amid.buffered⟩
  · cases legal

theorem InStep.streamStop (inStep : InStep keyCols d sv startLsn before chunk [])
    (amid : Amid d sv) (legal : sv.step? keyCols (.xlogData .streamStop sub) = some sv')
    (ran : d.message p .streamStop sub = .ok (d', stop)) :
    KeptUp keyCols d' sv' startLsn before stop := by
  rw [Server.step?] at legal
  split at legal
  · cases legal
    cases ran
    exact InStep.keptUp (inStep.quiet inStep.keeps rfl rfl rfl rfl rfl le_rfl)
      ⟨rfl, amid.buffered⟩
  · cases legal

theorem InStep.streamCommit (inStep : InStep keyCols d sv startLsn before chunk [])
    (amid : Amid d sv) {xid e : Nat}
    (legal : sv.step? keyCols (.xlogData (.streamCommit xid e) sub) = some sv')
    (ran : d.message p (.streamCommit xid e) sub = .ok (d', stop)) :
    KeptUp keyCols d' sv' startLsn before stop := by
  rw [Server.step?] at legal
  split at legal
  · rename_i idle
    have between := Server.between_iff.mp idle
    obtain ⟨sent, opened, legal⟩ := Option.bind_eq_some_iff.mp legal
    obtain ⟨ops, held, named⟩ := inStep.keeps.stream opened
    simp only [Drain.message, held, Option.getD_some] at ran
    have names : List.Forall₂ (NamedOp d.sess) (ops.map fun o => (o.1, o.2.1))
        (sent.map Prod.snd) :=
      List.forall₂_map_left_iff.mpr (List.forall₂_map_right_iff.mpr
        (named.imp fun _ _ h => h.1))
    have inStep' : ∀ n, InStep keyCols
        { d with sess := { d.sess with streams := d.sess.streams.erase xid, streamBytes := n } }
        { sv with streams := Function.update sv.streams xid none } startLsn before chunk [] :=
      fun n => inStep.quiet (inStep.keeps.eraseStream xid n) rfl rfl rfl rfl rfl le_rfl
    exact (inStep' _).committed_keptUp (amid.alone between) between names legal ran
  · cases legal

theorem InStep.streamAbort (inStep : InStep keyCols d sv startLsn before chunk [])
    (amid : Amid d sv) {xid subXid : Nat}
    (legal : sv.step? keyCols (.xlogData (.streamAbort xid subXid) sub) = some sv')
    (ran : d.message p (.streamAbort xid subXid) sub = .ok (d', stop)) :
    KeptUp keyCols d' sv' startLsn before stop := by
  rw [Server.step?] at legal
  split at legal
  · cases legal
    cases ran
    have slots := Drain.slots_abort d.sess xid subXid
    have grows : Grows d.sess (Drain.abort d.sess xid subXid) := by
      intro s t named
      rwa [DrainSession.tableOf, slots]
    exact InStep.keptUp
      (inStep.quiet (inStep.keeps.abort xid subXid) (congrArg List.length slots)
        (Drain.slotByName_abort d.sess xid subXid) rfl rfl rfl le_rfl)
      ⟨amid.block, amid.buffered.imp fun _ _ name => name.grow grows⟩
  · cases legal

theorem InStep.truncate (inStep : InStep keyCols d sv startLsn before chunk []) (amid : Amid d sv)
    {relIds : List Nat} (legal : sv.step? keyCols (.xlogData (.truncate relIds) sub) = some sv')
    (ran : d.message p (.truncate relIds) sub = .ok (d', stop)) :
    KeptUp keyCols d' sv' startLsn before stop := by
  obtain ⟨d₁, ran', same⟩ := map_eq_ok.mp ran
  cases same
  have folded : (relIds.map (·, StreamOp.truncate)).foldlM (fun (d₁ : Drain β) c =>
      d₁.rowChange p (sub.or d.inStream) false c.1 c.2) d = .ok d' := by
    rw [List.foldlM_map]
    exact ran'
  exact inStep.changes amid legal folded

/-- One message. -/
theorem InStep.message (inStep : InStep keyCols d sv startLsn before chunk []) (amid : Amid d sv)
    (keys : p.keyCols = keyCols) {msg : PgoMessage}
    (legal : sv.step? keyCols (.xlogData msg sub) = some sv')
    (ran : d.message p msg sub = .ok (d', stop)) : KeptUp keyCols d' sv' startLsn before stop := by
  cases msg with
  | begin => exact inStep.begin amid legal ran
  | commit e => exact inStep.commitMessage amid legal ran
  | streamStart xid => exact inStep.streamStart amid legal ran
  | streamStop => exact inStep.streamStop amid legal ran
  | streamCommit xid e => exact inStep.streamCommit amid legal ran
  | streamAbort xid subXid => exact inStep.streamAbort amid legal ran
  | relation r =>
      cases legal
      obtain ⟨d₁, ran', same⟩ := map_eq_ok.mp ran
      cases same
      obtain ⟨inStep', amid'⟩ := inStep.relation amid keys ran'
      exact inStep'.keptUp amid'
  | origin | type =>
      cases legal
      cases ran
      exact inStep.keptUp amid
  | insert | update | delete =>
      obtain ⟨d₁, ran', same⟩ := map_eq_ok.mp ran
      cases same
      exact inStep.changes amid legal (foldlM_one.trans ran')
  | truncate relIds => exact inStep.truncate amid legal ran

end Messages

/-- A keepalive: it may close the window at the caught-up point. -/
theorem InStep.keepalive (inStep : InStep keyCols d sv startLsn before chunk [])
    (amid : Amid d sv) {walEnd : Nat} {reply : Bool}
    (ran : d.keepalive p m walEnd reply = .ok (d', stop)) :
    KeptUp keyCols d' { sv with horizon := max sv.horizon walEnd } startLsn before stop := by
  rw [Drain.keepalive] at ran
  dsimp only at ran
  generalize told : (if reply = true then { d with reported := d.reported ++ [m.applied] } else d) =
    d₁ at ran
  have inStep₁ : InStep keyCols d₁ { sv with horizon := max sv.horizon walEnd } startLsn before
      chunk [] := by
    subst told
    split <;> exact inStep.quiet inStep.keeps rfl rfl rfl rfl rfl (le_max_left _ _)
  have amid₁ : Amid d₁ { sv with horizon := max sv.horizon walEnd } := by
    subst told
    split <;> exact ⟨amid.block, amid.buffered⟩
  split at ran
  · rename_i caughtUp
    split at ran
    · obtain ⟨now, -, same⟩ := map_eq_ok.mp ran
      cases same
      exact InStep.keptUp (inStep₁.quiet inStep₁.keeps rfl rfl rfl rfl rfl le_rfl)
        ⟨amid₁.block, amid₁.buffered⟩
    · cases ran
      refine ⟨⟨amid₁.block, amid₁.buffered⟩, chunk, [], ?_, fun _ => rfl, fun _ => caughtUp.2⟩
      have end_le := inStep.end_le
      have same : d₁.endLsn = d.endLsn := by
        subst told
        split <;> rfl
      refine ⟨inStep₁.keeps, inStep₁.lands, inStep₁.committed, ?_, ?_, nofun, ?_⟩
      · exact le_trans inStep₁.start_le (le_max_left _ _)
      · exact fun tx mem => le_trans (inStep₁.landed_le tx mem) (le_max_left _ _)
      · change max d₁.endLsn (min walEnd d₁.stopLine) ≤ max sv.horizon walEnd
        omega
  · cases ran
    exact inStep₁.keptUp amid₁

/-- One event of the stream. -/
theorem InStep.event (inStep : InStep keyCols d sv startLsn before chunk []) (amid : Amid d sv)
    (keys : p.keyCols = keyCols) {ev : WalEvent} (legal : sv.step? keyCols ev = some sv')
    (ran : d.event p m ev = .ok (d', stop)) : KeptUp keyCols d' sv' startLsn before stop := by
  cases ev with
  | xlogData msg sub => exact inStep.message amid keys legal ran
  | keepalive walEnd reply =>
      cases legal
      exact inStep.keepalive amid ran

/-- The loop: what it leaves unread starts between transactions. -/
theorem InStep.loop {events rest : List WalEvent} {turn : Nat}
    (inStep : InStep keyCols d sv startLsn before chunk []) (amid : events ≠ [] → Amid d sv)
    (keys : p.keyCols = keyCols) (legal : sv.run? keyCols events = some sv')
    (ran : d.loop p turn events = .ok (d', rest)) :
    ∃ consumed sv₁, events = consumed ++ rest ∧ sv.run? keyCols consumed = some sv₁ ∧
      (∃ chunk carried, InStep keyCols d' sv₁ startLsn before chunk carried) ∧
      (rest ≠ [] → Amid d' sv₁ ∧ d'.idle = true) := by
  induction events generalizing d sv chunk turn with
  | nil =>
      cases ran
      exact ⟨[], sv, rfl, rfl, ⟨chunk, [], inStep⟩, nofun⟩
  | cons ev events ih =>
      rw [Drain.loop] at ran
      split at ran
      · rename_i stopping
        cases ran
        exact ⟨[], sv, rfl, rfl, ⟨chunk, [], inStep⟩, fun more => ⟨amid more, stopping.2⟩⟩
      · split at ran
        · cases ran
        · obtain ⟨sv₁, first, legal⟩ := Option.bind_eq_some_iff.mp legal
          obtain ⟨⟨d₁, stop⟩, one, ran⟩ := bind_eq_ok.mp ran
          obtain ⟨amid₁, chunk₁, carried, inStep₁, goesOn, stops⟩ :=
            inStep.event (amid nofun) keys first one
          cases stop with
          | true =>
              cases ran
              refine ⟨[ev], sv₁, rfl, ?_, ⟨chunk₁, carried, inStep₁⟩, fun _ => ⟨amid₁, stops rfl⟩⟩
              rw [Server.run?, first]
              rfl
          | false =>
              rw [goesOn rfl] at inStep₁
              obtain ⟨consumed, sv₂, rfl, reached, after⟩ := ih inStep₁ (fun _ => amid₁) legal ran
              refine ⟨ev :: consumed, sv₂, rfl, ?_, after⟩
              rw [Server.run?, first]
              exact reached

end step

/-- A window hands its tables' bodies exactly these transactions: every body is
what its table's ops land, and the tables are those that have some. -/
structure DrainOutcome.Hands (β : Type) [DrainBody β W] (o : DrainOutcome W) (chunk : List Tx) :
    Prop where
  nodup : (o.bodies.map Prod.fst).Nodup
  body : ∀ t w, (t, w) ∈ o.bodies → ∃ (l : Layout) (b : β),
    DrainBody.landAll (DrainBody.new l) (opsOf t chunk) = .ok b ∧ DrainBody.sealBody b t = .ok w
  table : ∀ t, t ∈ o.bodies.map Prod.fst ↔ opsOf t chunk ≠ []

section window

variable {d : Drain β} {bodies : List (String × TableWindow W)}
variable {catalogue : Nat → Option String} {chunk : List Tx}

/-- The tables of the slots are distinct. -/
theorem Registered.nodup_tables {sess : DrainSession} (reg : Registered keyCols sess catalogue) :
    (sess.slots.map RelState.table).Nodup := by
  refine List.pairwise_iff_getElem.mpr fun i j hi hj lt same => ?_
  have at_i := (reg.slot (sess.slots.map RelState.table)[i] i).mpr (by
    rw [DrainSession.tableOf, ← List.getElem?_map, List.getElem?_eq_getElem hi])
  have at_j := (reg.slot (sess.slots.map RelState.table)[j] j).mpr (by
    rw [DrainSession.tableOf, ← List.getElem?_map, List.getElem?_eq_getElem hj])
  rw [same, at_j, Option.some.injEq] at at_i
  omega

private theorem sublist_filterMap {α γ δ : Type} {f : α → Option γ} {g : γ → δ} {h : α → δ}
    (names : ∀ a c, f a = some c → g c = h a) (xs : List α) :
    List.Sublist ((xs.filterMap f).map g) (xs.map h) := by
  induction xs with
  | nil => exact .slnil
  | cons a xs ih =>
      rw [List.filterMap_cons, List.map_cons]
      cases found : f a with
      | none => exact ih.cons _
      | some c =>
          rw [List.map_cons, names a c found]
          exact ih.cons_cons _

/-- Sealing keeps each body under its table's name. -/
theorem Drain.mem_sealBodies {pairs : List (String × β)}
    (ran : pairs.mapM (fun s => (DrainBody.sealBody s.2 s.1).map fun w => (s.1, w)) = .ok bodies) :
    bodies.map Prod.fst = pairs.map Prod.fst ∧
      ∀ t w, (t, w) ∈ bodies → ∃ b, (t, b) ∈ pairs ∧ DrainBody.sealBody b t = .ok w := by
  induction pairs generalizing bodies with
  | nil =>
      cases ran
      exact ⟨rfl, nofun⟩
  | cons first pairs ih =>
      rw [List.mapM_cons] at ran
      obtain ⟨_, one, ran⟩ := bind_eq_ok.mp ran
      obtain ⟨rest, others, ran⟩ := bind_eq_ok.mp ran
      obtain ⟨w, done, rfl⟩ := map_eq_ok.mp one
      cases ran
      obtain ⟨names, there⟩ := ih others
      refine ⟨by rw [List.map_cons, List.map_cons, names], fun t w' mem => ?_⟩
      cases List.mem_cons.mp mem with
      | inl here =>
          cases here
          exact ⟨first.2, .head _, done⟩
      | inr mem =>
          obtain ⟨b, mem, done⟩ := there t w' mem
          exact ⟨b, .tail _ mem, done⟩

/-- The window a drain seals hands over what its bodies hold. -/
theorem Lands.hands (lands : LandsTxs d.sess d.bodies chunk)
    (reg : Registered keyCols d.sess catalogue) (ran : d.sealBodies = .ok bodies) (id : WindowId)
    (hit : Bool) (reported : List Nat) :
    DrainOutcome.Hands β ⟨bodies, id, hit, reported⟩ chunk := by
  obtain ⟨names, there⟩ := Drain.mem_sealBodies ran
  have mem_pairs : ∀ t b, (t, b) ∈ (d.sess.slots.zipIdx.filterMap fun s =>
      d.bodies[s.2]?.join.map fun b => (s.1.table, b)) ↔ bodyOf d.sess d.bodies t = some b := by
    intro t b
    rw [List.mem_filterMap, bodyOf, Option.bind_eq_some_iff]
    constructor
    · rintro ⟨⟨st, i⟩, mem, held⟩
      obtain ⟨b', held, same⟩ := Option.map_eq_some_iff.mp held
      cases same
      refine ⟨i, (reg.slot _ i).mpr ?_, held⟩
      rw [DrainSession.tableOf, List.mem_zipIdx_iff_getElem?.mp mem, Option.map_some]
    · rintro ⟨i, named, held⟩
      obtain ⟨st, at_i, rfl⟩ := Option.map_eq_some_iff.mp ((reg.slot t i).mp named)
      exact ⟨(st, i), List.mem_zipIdx_iff_getElem?.mpr at_i, by rw [held, Option.map_some]⟩
  refine ⟨?_, fun t w mem => ?_, fun t => ?_⟩
  · have distinct : (d.sess.slots.zipIdx.map fun s => s.1.table).Nodup := by
      have tables := reg.nodup_tables
      rwa [← List.zipIdx_map_fst 0 d.sess.slots, List.map_map] at tables
    rw [names]
    refine (sublist_filterMap (fun s pair found => ?_) d.sess.slots.zipIdx).nodup distinct
    obtain ⟨b, -, rfl⟩ := Option.map_eq_some_iff.mp found
    rfl
  · obtain ⟨b, mem, done⟩ := there t w mem
    have handed := lands.handed t
    rw [(mem_pairs t b).mp mem] at handed
    obtain ⟨-, l, landed⟩ := handed
    exact ⟨l, b, landed, done⟩
  · have handed := lands.handed t
    rw [names, List.mem_map]
    constructor
    · rintro ⟨⟨t', b⟩, mem, rfl⟩
      rw [(mem_pairs t' b).mp mem] at handed
      exact handed.1
    · intro some_ops
      cases body : bodyOf d.sess d.bodies t with
      | none =>
          rw [body] at handed
          exact absurd handed some_ops
      | some b => exact ⟨(t, b), (mem_pairs t b).mpr body, rfl⟩

end window

/-- A session between two windows: what the server committed left with the
windows so far or opens the next one, and nothing else is half read. -/
structure Rests (keyCols : String → Option (List String)) (sess : DrainSession) (sv : Server)
    (endLsn : Nat) (landed carried : List Tx) (unread : List WalEvent) : Prop where
  keeps : Keeps keyCols sess sv.catalogue sv.streams carried
  committed : sv.committed = landed ++ carried
  lt_carried : ∀ tx ∈ carried, endLsn < tx.commit ∧ tx.commit ≤ sv.horizon
  end_le : endLsn ≤ sv.horizon
  between : unread ≠ [] → sv.block = none ∧ sv.tx.getD [] = []

/-- A new session streams from a position where the server starts. -/
theorem Rests.expecting (expected : String → Option (Nat × String)) (wm : Nat)
    (events : List WalEvent) :
    Rests keyCols (.expecting expected) (Server.start wm) wm [] [] events where
  keeps := ⟨.expecting expected, fun x => by
    rw [DrainSession.expecting, AList.lookup_empty]
    exact .none, rfl⟩
  committed := rfl
  lt_carried := nofun
  end_le := le_rfl
  between _ := ⟨rfl, rfl⟩

section drains

variable {p : DrainCall} {sess sess' : DrainSession} {sv sv' final : Server} {startLsn : Nat}
variable {landed carried : List Tx} {events rest : List WalEvent}

/-- The locals a drain starts with are in step: what was carried over has landed. -/
theorem Rests.start (rests : Rests keyCols sess sv startLsn landed carried events) {d : Drain β}
    {stop : Bool} (ran : Drain.start p sess startLsn = .ok (d, stop)) :
    InStep keyCols d sv startLsn landed carried [] ∧ (events ≠ [] → Amid d sv) ∧
      d.idle = true := by
  have carries := rests.keeps.carries
  rw [Carries] at carries
  rw [Drain.start] at ran
  split at carries
  · rename_i none_carried
    subst carries
    simp only [none_carried] at ran
    cases ran
    refine ⟨⟨rests.keeps, Lands.nil sess, ?_, le_rfl, nofun, nofun, rests.end_le⟩,
      fun more => ?_, rfl⟩
    · rw [rests.committed, List.append_nil, List.append_nil]
    · obtain ⟨block, tx⟩ := rests.between more
      exact ⟨block.symm, by rw [tx]; exact .nil⟩
  · rename_i ops e there
    obtain ⟨named, names, rfl⟩ := carries
    simp only [there] at ran
    obtain ⟨bodies, flushed, same⟩ := map_eq_ok.mp ran
    cases same
    have reg := rests.keeps.registered
    have reg' : Registered keyCols { sess with carry := none } sv.catalogue :=
      ⟨reg.slot, reg.flag, reg.rels, reg.last⟩
    have lands := (Lands.nil { sess with carry := none }).flushOps reg' names flushed
    obtain ⟨lt, le⟩ := rests.lt_carried ⟨named, e⟩ (.head _)
    refine ⟨⟨⟨reg', rests.keeps.streams, rfl⟩, ⟨lands.length, fun t => ?_⟩, ?_, Nat.le_of_lt lt, ?_,
      nofun, le⟩, fun more => ?_, rfl⟩
    · rw [opsOf_singleton]
      exact lands.handed t
    · rw [rests.committed, List.append_nil]
    · intro tx mem
      rw [List.mem_singleton.mp mem]
    · obtain ⟨block, tx⟩ := rests.between more
      exact ⟨block.symm, by rw [tx]; exact .nil⟩

/-- One drain call, whatever stops it. -/
theorem Rests.drain (rests : Rests keyCols sess sv startLsn landed carried events)
    (keys : p.keyCols = keyCols) (legal : sv.run? keyCols events = some final)
    {o : DrainOutcome W} (ran : Apitap.drain β p sess startLsn events = .ok (o, sess', rest)) :
    ∃ consumed sv' chunk carried', events = consumed ++ rest ∧
      sv.run? keyCols consumed = some sv' ∧ sv'.run? keyCols rest = some final ∧
      Rests keyCols sess' sv' o.id.end (landed ++ chunk) carried' rest ∧
      o.id.start = startLsn ∧ startLsn ≤ o.id.end ∧ (∀ tx ∈ chunk, tx.commit ≤ o.id.end) ∧
      o.Hands β chunk := by
  obtain ⟨⟨d₀, carriedToStop⟩, started, ran⟩ := bind_eq_ok.mp ran
  obtain ⟨inStep, amid, idle⟩ := rests.start started
  obtain ⟨⟨d, rest'⟩, looped, ran⟩ := bind_eq_ok.mp ran
  obtain ⟨bodies, sealed, ran⟩ := bind_eq_ok.mp ran
  cases ran
  have ends : ∃ consumed sv₁, events = consumed ++ rest ∧ sv.run? keyCols consumed = some sv₁ ∧
      (∃ chunk carried, InStep keyCols d sv₁ startLsn landed chunk carried) ∧
      (rest ≠ [] → Amid d sv₁ ∧ d.idle = true) := by
    cases carriedToStop with
    | true =>
        cases looped
        exact ⟨[], sv, rfl, rfl, ⟨carried, [], inStep⟩, fun more => ⟨amid more, idle⟩⟩
    | false => exact inStep.loop amid keys legal looped
  obtain ⟨consumed, sv₁, rfl, reached, ⟨chunk, carried', after⟩, between⟩ := ends
  have legal' : sv₁.run? keyCols rest = some final := by
    rwa [Server.run?_append, reached] at legal
  refine ⟨consumed, sv₁, chunk, carried', rfl, reached, legal',
    ⟨after.keeps, after.committed, after.lt_carried,
    after.end_le, fun more => ?_⟩, rfl, after.start_le, after.landed_le,
    after.lands.hands after.keeps.registered sealed _ _ _⟩
  obtain ⟨amid', idle'⟩ := between more
  obtain ⟨txBuf, inStream⟩ := Drain.idle_iff.mp idle'
  have buffered := amid'.buffered
  rw [txBuf] at buffered
  exact ⟨amid'.block.symm.trans inStream, List.forall₂_nil_left_iff.mp buffered⟩

end drains

/-- The windows, each from where the last one ended, cut these transactions into
one chunk each: a chunk commits at or below its window's end and is exactly what
the window hands over, and everything after it commits above that end. `later`
is what no window has landed. -/
inductive Partitions (β : Type) [DrainBody β W] : Nat → List (DrainOutcome W) → List Tx →
    List Tx → Prop
  | nil (startLsn : Nat) (later : List Tx) : Partitions β startLsn [] later later
  | cons {startLsn : Nat} {o : DrainOutcome W} {os : List (DrainOutcome W)}
      {chunk txs later : List Tx} (start : o.id.start = startLsn) (start_le : startLsn ≤ o.id.end)
      (hands : o.Hands β chunk) (landed_le : ∀ tx ∈ chunk, tx.commit ≤ o.id.end)
      (lt_later : ∀ tx ∈ txs, o.id.end < tx.commit)
      (rest : Partitions β o.id.end os txs later) :
      Partitions β startLsn (o :: os) (chunk ++ txs) later

theorem Partitions.start_ge {startLsn : Nat} {os : List (DrainOutcome W)} {txs later : List Tx}
    (cuts : Partitions β startLsn os txs later) : ∀ o ∈ os, startLsn ≤ o.id.start := by
  induction cuts with
  | nil => exact nofun
  | cons start start_le _ _ _ _ ih =>
      refine List.forall_mem_cons.mpr ⟨start ▸ le_rfl, fun o mem => ?_⟩
      exact le_trans start_le (ih o mem)

/-- Successive drains on one session, in step with the server all along. -/
theorem Rests.drains {sess sess' : DrainSession} {sv final : Server} {startLsn : Nat}
    {landed carried : List Tx} {events rest : List WalEvent} {calls : List DrainCall}
    {os : List (DrainOutcome W)} (rests : Rests keyCols sess sv startLsn landed carried events)
    (keys : ∀ p ∈ calls, p.keyCols = keyCols) (legal : sv.run? keyCols events = some final)
    (ran : Apitap.drains β sess startLsn events calls = .ok (os, sess', rest)) :
    ∃ sv' txs carried' endLsn, sv'.run? keyCols rest = some final ∧
      Rests keyCols sess' sv' endLsn (landed ++ txs) carried' rest ∧
      (∀ o ∈ os, o.id.end ≤ final.horizon) ∧
      ∃ unread, final.committed = sv'.committed ++ unread ∧
        Partitions β startLsn os (txs ++ carried' ++ unread) (carried' ++ unread) := by
  induction calls generalizing sess sv startLsn landed carried events os with
  | nil =>
      cases ran
      obtain ⟨unread, committed, -, -⟩ := Server.extends_run legal
      refine ⟨sv, [], carried, startLsn, legal, ?_, nofun, unread, committed, .nil _ _⟩
      rw [List.append_nil]
      exact rests
  | cons p calls ih =>
      obtain ⟨⟨o, sess₁, rest₁⟩, first, ran⟩ := bind_eq_ok.mp ran
      obtain ⟨⟨os', sess₂, rest₂⟩, more, ran⟩ := bind_eq_ok.mp ran
      cases ran
      obtain ⟨-, sv₁, chunk, carried₁, -, -, legal₁, rests₁, start, start_le, landed_le, hands⟩ :=
        rests.drain (keys p (.head _)) legal first
      obtain ⟨sv', txs, carried', endLsn, legal', rests', ends, unread, committed, cuts⟩ :=
        ih rests₁ (fun p mem => keys p (.tail _ mem)) legal₁ more
      refine ⟨sv', chunk ++ txs, carried', endLsn, legal', ?_, ?_, unread, committed, ?_⟩
      · rw [← List.append_assoc]
        exact rests'
      · obtain ⟨-, -, -, grew⟩ := Server.extends_run legal₁
        exact List.forall_mem_cons.mpr ⟨le_trans rests₁.end_le grew, ends⟩
      · have after : ∀ tx ∈ txs ++ carried' ++ unread, o.id.end < tx.commit := by
          obtain ⟨later, committed₁, past, -⟩ := Server.extends_run legal₁
          have same : txs ++ carried' ++ unread = carried₁ ++ later := by
            have all : landed ++ chunk ++ (txs ++ carried' ++ unread) =
                landed ++ chunk ++ (carried₁ ++ later) :=
              calc landed ++ chunk ++ (txs ++ carried' ++ unread)
                _ = final.committed := by
                  rw [committed, rests'.committed]
                  simp only [List.append_assoc]
                _ = landed ++ chunk ++ (carried₁ ++ later) := by
                  rw [committed₁, rests₁.committed, List.append_assoc]
            exact List.append_cancel_left all
          rw [same]
          intro tx mem
          cases List.mem_append.mp mem with
          | inl mem => exact (rests₁.lt_carried tx mem).1
          | inr mem => exact lt_of_le_of_lt rests₁.end_le (past tx mem)
        have cut := Partitions.cons start start_le hands landed_le after cuts
        rwa [← List.append_assoc, ← List.append_assoc] at cut

/-- Successive drains on one session cut what a legal stream commits into one
chunk a window, in commit order, and leave the rest for later: the transaction
the session carries over, and what the server commits in the events still to be
read. -/
theorem drains_partition {final : Server} {wm : Nat} {expected : String → Option (Nat × String)}
    {events rest : List WalEvent} {calls : List DrainCall} {os : List (DrainOutcome W)}
    {sess : DrainSession} (keys : ∀ p ∈ calls, p.keyCols = keyCols)
    (legal : (Server.start wm).run? keyCols events = some final)
    (ran : drains β (.expecting expected) wm events calls = .ok (os, sess, rest)) :
    ∃ (sv : Server) (carried unread : List Tx), sv.run? keyCols rest = some final ∧
      Carries sess carried ∧
      final.committed = sv.committed ++ unread ∧
      Partitions β wm os final.committed (carried ++ unread) := by
  obtain ⟨sv, txs, carried, endLsn, legal', rests, -, unread, committed, cuts⟩ :=
    (Rests.expecting expected wm events).drains keys legal ran
  refine ⟨sv, carried, unread, legal', rests.keeps.carries, committed, ?_⟩
  rwa [committed, rests.committed, List.nil_append]

set_option maxRecDepth 4000 in
/-- The whole transaction lands in the first window, the streamed one, without
what its savepoint rolled back, in the second. -/
theorem drains_partition_stream :
    ∃ (final : Server) (os : List (DrainOutcome Collapsed)) (sess : DrainSession)
      (rest : List WalEvent),
      final.committed.map (fun tx => (tx.commit, tx.ops.length)) = [(20, 1), (30, 1)] ∧
      os.map DrainOutcome.id = [⟨10, 20⟩, ⟨20, 40⟩] ∧
      ∃ (sv : Server) (carried unread : List Tx),
        sv.run? Sample.keyCols rest = some final ∧ Carries sess carried ∧
          final.committed = sv.committed ++ unread ∧
          Partitions Collapser 10 os final.committed (carried ++ unread) := by
  have sent : ((Server.start 10).run? Sample.keyCols Sample.stream).map (fun sv =>
      sv.committed.map fun tx => (tx.commit, tx.ops.length)) = some [(20, 1), (30, 1)] := by decide
  have ids : Sample.windowIds 10 Sample.stream [Sample.drainTo 15, Sample.drainTo 40] =
      some [⟨10, 20⟩, ⟨20, 40⟩] := by decide
  obtain ⟨final, legal, committed⟩ := Option.map_eq_some_iff.mp sent
  rw [Sample.windowIds] at ids
  split at ids
  · rename_i os sess rest ran
    exact ⟨final, os, sess, rest, committed, Option.some.inj ids,
      drains_partition (by simp [Sample.drainTo]) legal ran⟩
  · cases ids

end Apitap
