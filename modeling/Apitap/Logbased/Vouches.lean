import Apitap.Logbased.ChUnit

/-!
# A watermark vouches for its window

Against a fixed deadline the fence only ever closes. A unit that had a part fenced out is
doomed: a row of its keys is claimed, or its deadline has passed and it owes the proof
that it had not. No read that continues the deadline passes after that, and no mark.
-/

namespace Apitap.Clickhouse

/-! ## The server over time -/

/-- Time goes on, claims stay, and an unclaimed row's expiry only rises. -/
structure Server.Later (s s' : Server) : Prop where
  now : s.now ≤ s'.now
  rows : ∀ key row, s.rows key = some row → ∃ row', s'.rows key = some row' ∧
    (row.collected = true → row'.collected = true) ∧
    (row'.collected = true ∨ row.expires ≤ row'.expires)

theorem Server.Moves.later {s s' : Server} (moves : s.Moves s') : s.Later s' := by
  have kept {key k : Key} {row new : Row} (ne : k ≠ key) (there : s.rows k = some row) :
      ∃ row', (s.setRow key new).rows k = some row' ∧
        (row.collected = true → row'.collected = true) ∧
        (row'.collected = true ∨ row.expires ≤ row'.expires) :=
    ⟨row, (Function.update_of_ne ne ..).trans there, id, .inr (Nat.le_refl _)⟩
  cases moves with
  | time later => exact ⟨later, fun key row there => ⟨row, there, id, .inr (Nat.le_refl _)⟩⟩
  | @renew key old t there own later =>
      refine ⟨Nat.le_refl _, fun k row is => ?_⟩
      by_cases same : k = key
      · subst same
        obtain rfl := Option.some.inj (there.symm.trans is)
        exact ⟨_, Function.update_self .., id, .inr later⟩
      · exact kept same is
  | @claim key old t there =>
      refine ⟨Nat.le_refl _, fun k row is => ?_⟩
      by_cases same : k = key
      · subst same
        exact ⟨_, Function.update_self .., fun _ => rfl, .inl rfl⟩
      · exact kept same is
  | @opened key t none =>
      refine ⟨Nat.le_refl _, fun k row is => ?_⟩
      by_cases same : k = key
      · subst same
        nomatch none.symm.trans is
      · exact kept same is

/-- Each key's row is there, and while it is unclaimed it lives to the deadline. -/
def Held (s : Server) (keys : List Key) (e0 : Nat) : Prop :=
  ∀ key ∈ keys, ∃ row, s.rows key = some row ∧ (row.collected = true ∨ e0 ≤ row.expires)

def Claimed (s : Server) (keys : List Key) : Prop :=
  ∃ key ∈ keys, ∃ row, s.rows key = some row ∧ row.collected = true

section

variable {margin : Nat} {s s' : Server} {keys : List Key} {e0 : Nat}

theorem Held.later (held : Held s keys e0) (later : s.Later s') : Held s' keys e0 := by
  intro key mem
  obtain ⟨row, there, alive⟩ := held key mem
  obtain ⟨row', there', collected, expires⟩ := later.rows key row there
  refine ⟨row', there', ?_⟩
  obtain claimed | alive := alive
  · exact .inl (collected claimed)
  · exact expires.imp id (Nat.le_trans alive)

theorem Claimed.later (claimed : Claimed s keys) (later : s.Later s') : Claimed s' keys := by
  obtain ⟨key, mem, row, there, collected⟩ := claimed
  obtain ⟨row', there', stays, -⟩ := later.rows key row there
  exact ⟨key, mem, row', there', stays collected⟩

theorem ownerPred_iff {key : Key} : s.ownerPred margin key = true ↔
    ∃ row, s.rows key = some row ∧ row.collected = false ∧ s.now + margin < row.expires := by
  unfold Server.ownerPred
  cases s.rows key <;> simp

/-- An owner's predicate passes before the deadline. -/
theorem pred_of_held (held : Held s keys e0) (unclaimed : ¬ Claimed s keys)
    (before : s.now + margin < e0) : s.pred margin keys e0 = true := by
  refine Bool.and_eq_true_iff.mpr ⟨List.all_eq_true.mpr fun key mem => ?_, decide_eq_true before⟩
  obtain ⟨row, there, alive⟩ := held key mem
  have own : row.collected = false := by
    cases is : row.collected with
    | false => rfl
    | true => exact absurd ⟨key, mem, row, there, is⟩ unclaimed
  refine ownerPred_iff.mpr ⟨row, there, own, ?_⟩
  obtain claimed | alive := alive
  · rw [own] at claimed
    nomatch claimed
  · omega

theorem of_pred (passes : s.pred margin keys e0 = true) :
    ¬ Claimed s keys ∧ s.now + margin < e0 := by
  obtain ⟨owners, before⟩ := Bool.and_eq_true_iff.mp passes
  refine ⟨fun ⟨key, mem, row, there, collected⟩ => ?_, of_decide_eq_true before⟩
  obtain ⟨row', there', own, -⟩ := ownerPred_iff.mp (List.all_eq_true.mp owners key mem)
  obtain rfl := Option.some.inj (there.symm.trans there')
  rw [own] at collected
  nomatch collected

/-- A read that finds every key unclaimed has an expiry of each. -/
theorem live_all (all : (s.live keys).length = keys.dedup.length) :
    ∀ key ∈ keys, ∃ row, s.rows key = some row ∧ row.collected = false ∧
      (s.live keys).min?.getD 0 ≤ row.expires := by
  intro key mem
  have some_ := List.filterMap_length_eq_length.mp all key (List.mem_dedup.mpr mem)
  cases there : s.rows key with
  | none => simp [there] at some_
  | some row =>
      have own : row.collected = false := by
        cases is : row.collected with
        | false => rfl
        | true => simp [there, is] at some_
      refine ⟨row, rfl, own, ?_⟩
      have listed : row.expires ∈ s.live keys :=
        List.mem_filterMap.mpr ⟨key, List.mem_dedup.mpr mem, by simp [there, own]⟩
      obtain ⟨least, is⟩ := Option.isSome_iff_exists.mp
        (List.isSome_min?_of_mem listed)
      rw [is]
      exact (List.min?_eq_some_iff.mp is).2 _ listed

theorem repin_some {now e owned n e' : Nat} {prev : Option Nat}
    (is : repin now e owned n margin prev = some e') :
    e' = e ∧ owned = n ∧ now + margin < e ∧ ∀ p, prev = some p → now + margin < p := by
  simp only [repin, Bool.and_eq_true, Option.ite_none_right_eq_some, decide_eq_true_eq,
    Option.some.injEq] at is
  obtain ⟨⟨⟨owned, live⟩, continuous⟩, rfl⟩ := is
  refine ⟨rfl, owned, live, fun p is => ?_⟩
  subst is
  exact of_decide_eq_true continuous

/-! ## A read of the pin -/

variable {w w' : World} {prev : Option Nat} {p : Pin}

/-- What a successful read has seen, and that it goes to the cache. -/
structure Read (margin : Nat) (w : World) (keys : List Key) (prev : Option Nat) (p : Pin)
    (w' : World) : Prop where
  held : Held w.server keys p.e0
  unclaimed : ¬ Claimed w.server keys
  continuous : ∀ e, prev = some e → w.server.now + margin < e
  server : w'.server = w.server
  units : w'.units = w.units
  pins : w'.pins = Function.update w.pins keys (some p)

theorem read_of_pin (read : w.pin margin keys prev = some (p, w')) :
    Read margin w keys prev p w' := by
  unfold World.pin at read
  dsimp only at read
  split at read
  · rename_i e0 verdict
    obtain ⟨rfl, rfl⟩ := Prod.mk.inj (Option.some.inj read)
    obtain ⟨rfl, all, -, continuous⟩ := repin_some verdict
    have rows := live_all all
    refine ⟨fun key mem => ?_, fun ⟨key, mem, row, there, collected⟩ => ?_, continuous,
      rfl, rfl, rfl⟩
    · obtain ⟨row, there, -, least⟩ := rows key mem
      exact ⟨row, there, .inr least⟩
    · obtain ⟨row', there', own, -⟩ := rows key mem
      obtain rfl := Option.some.inj (there.symm.trans there')
      rw [own] at collected
      nomatch collected
  · nomatch read

/-- Every cached pin was read of these keys. -/
def Cached (w : World) : Prop := ∀ keys c, w.pins keys = some c → Held w.server keys c.e0

theorem Read.cached (read : Read margin w keys prev p w') (cached : Cached w) : Cached w' := by
  intro ks c is
  rw [read.pins] at is
  rw [read.server]
  by_cases same : ks = keys
  · subst same
    rw [Function.update_self] at is
    obtain rfl := Option.some.inj is
    exact read.held
  · rw [Function.update_of_ne same] at is
    exact cached ks c is

/-- What an open without a deadline to continue gives. -/
theorem openUnit_spec (cached : Cached w) (opened : w.openUnit margin keys = some (p, w')) :
    Held w.server keys p.e0 ∧ w'.server = w.server ∧ w'.units = w.units ∧ Cached w' := by
  unfold World.openUnit World.storeOpenUnitAt at opened
  dsimp only at opened
  split at opened
  · rename_i q reused
    obtain ⟨rfl, rfl⟩ := Prod.mk.inj (Option.some.inj opened)
    refine ⟨?_, rfl, rfl, cached⟩
    unfold World.cachedPin at reused
    split at reused
    · rename_i c there
      unfold reuseCached at reused
      split at reused
      · nomatch reused
      · obtain rfl := Option.some.inj reused
        exact cached keys c there
    · nomatch reused
  · have read := read_of_pin opened
    exact ⟨read.held, read.server, read.units, read.cached cached⟩

/-! ## Units -/

/-- Its keys are claimed, or it owes a proof it can no longer give. -/
def Doomed (margin : Nat) (s : Server) (u : ChUnit) : Prop :=
  Claimed s u.keys ∨ u.owed = true ∧ u.pin.e0 ≤ s.now + margin

theorem Doomed.later {u : ChUnit} (doomed : Doomed margin s u) (later : s.Later s') :
    Doomed margin s' u :=
  doomed.imp (Claimed.later · later) fun ⟨owed, passed⟩ =>
    ⟨owed, Nat.le_trans passed (Nat.add_le_add_right later.now margin)⟩

structure Good (margin : Nat) (s : Server) (u : ChUnit) : Prop where
  held : Held s u.keys u.pin.e0
  running : u.phase = .running → u.owed = true
  doomed : u.fenced = true → Doomed margin s u
  marked : ∀ key ∈ u.marked, u.fenced = false ∧ (u.phase = .closing ∨ u.phase = .failed)
  /-- A unit that sends statements has one key; a group's unit sends none. -/
  single : (∃ key, u.keys = [key]) ∨ u.members ≠ []
  group : u.members ≠ [] → u.fenced = false ∧ u.phase ≠ .running ∧ u.phase ≠ .handed

/-- A unit without a part fenced out, closed without a mark. -/
def Landed (w : World) (id : Nat) : Prop :=
  ∃ u, w.units id = some u ∧ u.phase = .handed ∧ u.fenced = false ∧ u.members = []

structure Inv (margin : Nat) (w : World) : Prop where
  cached : Cached w
  good : ∀ id u, w.units id = some u → Good margin w.server u
  members : ∀ id u, w.units id = some u → ∀ m ∈ u.members, Landed w m

theorem Good.later {u : ChUnit} (good : Good margin s u) (later : s.Later s') : Good margin s' u :=
  ⟨good.held.later later, good.running, fun fenced => (good.doomed fenced).later later, good.marked,
    good.single, good.group⟩

theorem setUnit_self {id : Nat} {u : ChUnit} : (w.setUnit id u).units id = some u :=
  Function.update_self ..

theorem setUnit_ne {id j : Nat} {u : ChUnit} (ne : j ≠ id) : (w.setUnit id u).units j = w.units j :=
  Function.update_of_ne ne ..

/-- A unit that was not handed over changes. -/
theorem Inv.set {id : Nat} {u : ChUnit} (inv : Inv margin w) (good : Good margin w.server u)
    (mine : ∀ v, w.units id = some v → v.phase ≠ .handed)
    (members : ∀ m ∈ u.members, Landed w m) : Inv margin (w.setUnit id u) := by
  have stays {m : Nat} (landed : Landed w m) : Landed (w.setUnit id u) m := by
    obtain ⟨v, there, handed, whole⟩ := landed
    refine ⟨v, (setUnit_ne fun same => ?_).trans there, handed, whole⟩
    exact mine v (same ▸ there) handed
  refine ⟨inv.cached, fun j v there => ?_, fun j v there m mem => stays ?_⟩
  · by_cases same : j = id
    · subst same
      obtain rfl := Option.some.inj (setUnit_self.symm.trans there)
      exact good
    · exact inv.good j v ((setUnit_ne same).symm.trans there)
  · by_cases same : j = id
    · subst same
      obtain rfl := Option.some.inj (setUnit_self.symm.trans there)
      exact members m mem
    · exact inv.members j v ((setUnit_ne same).symm.trans there) m mem

/-- The same units, over a server that has moved on. -/
theorem Inv.moved (inv : Inv margin w) (later : w.server.Later w'.server)
    (units : w'.units = w.units)
    (cached : Cached w') : Inv margin w' := by
  refine ⟨cached, fun id u there => ?_, fun id u there m mem => ?_⟩
  · exact (inv.good id u (units ▸ there)).later later
  · obtain ⟨v, there, landed⟩ := inv.members id u (units ▸ there) m mem
    exact ⟨v, units ▸ there, landed⟩

theorem Server.Later.refl : s.Later s :=
  ⟨Nat.le_refl _, fun _ row there => ⟨row, there, id, .inr (Nat.le_refl _)⟩⟩

/-! ## Runs -/

/-- The group's unit opens where the store's own continuity check, against the lowest of
the members' deadlines, passes. -/
def Continues (margin : Nat) (w : World) (members : List (Nat × ChUnit)) : Prop :=
  (w.storeOpenUnitAt margin (memberKeys members) (some (deadline members))).isSome = true

theorem deadline_le {members : List (Nat × ChUnit)} {m : Nat × ChUnit} (mem : m ∈ members) :
    deadline members ≤ m.2.pin.e0 := by
  have listed : m.2.pin.e0 ∈ members.map (·.2.pin.e0) := List.mem_map_of_mem mem
  obtain ⟨least, is⟩ := Option.isSome_iff_exists.mp (List.isSome_min?_of_mem listed)
  unfold deadline
  rw [is]
  exact (List.min?_eq_some_iff.mp is).2 _ listed

/-- A member that is doomed fails the check. -/
theorem Inv.landed (inv : Inv margin w) {members : List (Nat × ChUnit)}
    (continues : Continues margin w members) {m : Nat × ChUnit} (mem : m ∈ members)
    (there : w.units m.1 = some m.2) (handed : m.2.phase = .handed) : Landed w m.1 := by
  have good := inv.good m.1 m.2 there
  obtain ⟨⟨p, w'⟩, opened⟩ := Option.isSome_iff_exists.mp continues
  have read := read_of_pin opened
  refine ⟨m.2, there, handed, ?_, ?_⟩
  · by_contra fenced
    obtain ⟨key, own, claimed⟩ | ⟨-, passed⟩ := good.doomed (by simpa using fenced)
    · exact read.unclaimed ⟨key, List.mem_flatMap.mpr ⟨m, mem, own⟩, claimed⟩
    · have before := read.continuous _ rfl
      have least := deadline_le mem
      omega
  · by_contra group
    exact (good.group group).2.2 handed

theorem Good.unmarked {u : ChUnit} (good : Good margin s u)
    (going : u.phase ≠ .closing ∧ u.phase ≠ .failed) : ∀ key, key ∉ u.marked := fun key mem =>
  (good.marked key mem).2.elim going.1 going.2

/-- A unit that is not doomed had no part fenced out. -/
theorem Good.whole {u : ChUnit} (good : Good margin s u)
    (fine : ¬ Claimed s u.keys ∧ s.now + margin < u.pin.e0) : u.fenced = false := by
  by_contra fenced
  obtain claimed | ⟨-, passed⟩ := good.doomed (by simpa using fenced)
  · exact fine.1 claimed
  · exact absurd fine.2 (Nat.not_lt.mpr passed)

/-- A unit goes on, with the members it had. -/
theorem Inv.change {id : Nat} {u v : ChUnit} (inv : Inv margin w) (there : w.units id = some u)
    (mine : u.phase ≠ .handed) (good : Good margin w.server v) (members : v.members = u.members) :
    Inv margin (w.setUnit id v) := by
  refine inv.set good (fun u' is => ?_) fun m mem => inv.members id u there m (members ▸ mem)
  obtain rfl := Option.some.inj (there.symm.trans is)
  exact mine

theorem Inv.step (inv : Inv margin w) (step : Step margin (Continues margin) w w') :
    Inv margin w' := by
  cases step with
  | server moves =>
      exact inv.moved moves.later rfl fun keys c is => (inv.cached keys c is).later moves.later
  | tick => exact inv.moved .refl rfl inv.cached
  | @opens w' id key p new opened =>
      obtain ⟨held, server, units, cached⟩ := openUnit_spec inv.cached opened
      have after : Inv margin w' := inv.moved (server ▸ .refl) units cached
      refine after.set ⟨server ▸ held, nofun, nofun, nofun, .inl ⟨key, rfl⟩, fun is =>
        absurd rfl is⟩
        (fun v there => ?_) nofun
      rw [units, new] at there
      nomatch there
  | @opensGroup w' id members p new some_ handed within opened =>
      obtain ⟨held, server, units, cached⟩ := openUnit_spec inv.cached opened
      have after : Inv margin w' := inv.moved (server ▸ .refl) units cached
      refine after.set ⟨server ▸ held, nofun, nofun, nofun, .inr (by simpa using some_),
        fun _ => ⟨rfl, nofun, nofun⟩⟩ (fun v there => ?_) fun m mem => ?_
      · rw [units, new] at there
        nomatch there
      · obtain ⟨member, among, rfl⟩ := List.mem_map.mp mem
        obtain ⟨there, handed⟩ := handed member among
        obtain ⟨v, there, landed⟩ := inv.landed within among there handed
        exact ⟨v, units ▸ there, landed⟩
  | @keeps w' id u force p there going due read =>
      have read := read_of_pin read
      have good := inv.good id u there
      have after : Inv margin w' := inv.moved (read.server ▸ .refl) read.units
        (read.cached inv.cached)
      have whole : u.fenced ≠ true := fun fenced => by
        obtain claimed | ⟨owed, passed⟩ := good.doomed fenced
        · exact read.unclaimed claimed
        · exact absurd (read.continuous _ (if_pos owed)) (Nat.not_lt.mpr passed)
      refine after.set ⟨read.server ▸ read.held, fun running => ?_, fun fenced =>
        absurd fenced whole,
        good.marked, good.single, good.group⟩ (fun v is => ?_) fun m mem => ?_
      · obtain going | going := going <;> nomatch going.symm.trans running
      · rw [read.units, there] at is
        obtain rfl := Option.some.inj is
        obtain going | going := going <;> exact going ▸ nofun
      · obtain ⟨v, there, landed⟩ := inv.members id u there m mem
        exact ⟨v, read.units ▸ there, landed⟩
  | @sends id u there going own =>
      have good := inv.good id u there
      have unmarked := good.unmarked (by rw [going]; exact ⟨nofun, nofun⟩)
      refine inv.change there (going ▸ nofun) ⟨good.held, fun _ => rfl, fun fenced => ?_,
        fun key mem => absurd mem (unmarked key), good.single, fun is => absurd own is⟩ rfl
      exact (good.doomed fenced).imp (fun claimed => claimed) fun passed => ⟨rfl, passed.2⟩
  | @part id u there going =>
      have good := inv.good id u there
      have unmarked := good.unmarked (by rw [going]; exact ⟨nofun, nofun⟩)
      refine inv.change there (going ▸ nofun) ⟨good.held, good.running, fun fenced => ?_,
        fun key mem => absurd mem (unmarked key), good.single,
        fun is => absurd going (good.group is).2.1⟩ rfl
      obtain was | now := Bool.or_eq_true_iff.mp fenced
      · exact good.doomed was
      · -- an owner's part passes until the deadline
        by_contra fine
        obtain ⟨unclaimed, before⟩ := not_or.mp fine
        have passes := pred_of_held good.held unclaimed
          (Nat.lt_of_not_le fun passed => before ⟨good.running going, passed⟩)
        rw [passes] at now
        nomatch now
  | @done id u there going =>
      have good := inv.good id u there
      have unmarked := good.unmarked (by rw [going]; exact ⟨nofun, nofun⟩)
      exact inv.change there (going ▸ nofun) ⟨good.held, nofun, good.doomed,
        fun key mem => absurd mem (unmarked key), good.single,
        fun is => absurd going (good.group is).2.1⟩ rfl
  | @fails id u there going =>
      have good := inv.good id u there
      exact inv.change there going ⟨good.held, nofun, good.doomed,
        fun key mem => ⟨(good.marked key mem).1, .inr rfl⟩, good.single,
        fun is => ⟨(good.group is).1, nofun, nofun⟩⟩ rfl
  | @hands id u there going own =>
      have good := inv.good id u there
      have unmarked := good.unmarked (by rw [going]; exact ⟨nofun, nofun⟩)
      exact inv.change there (going ▸ nofun) ⟨good.held, nofun, good.doomed,
        fun key mem => absurd mem (unmarked key), good.single, fun is => absurd own is⟩ rfl
  | @closes id u there going =>
      have good := inv.good id u there
      have unmarked := good.unmarked (by rw [going]; exact ⟨nofun, nofun⟩)
      exact inv.change there (going ▸ nofun) ⟨good.held, nofun, good.doomed,
        fun key mem => absurd mem (unmarked key), good.single,
        fun is => ⟨(good.group is).1, nofun, nofun⟩⟩ rfl
  | @marks id u key there going own owner =>
      have good := inv.good id u there
      have whole := good.whole (of_pred owner)
      refine inv.change there (going ▸ nofun) ⟨good.held, fun running =>
        (nomatch going.symm.trans running),
        fun fenced => (nomatch whole.symm.trans fenced), fun _ _ =>
          ⟨whole, .inl going⟩, good.single,
        good.group⟩ rfl
  | @marksAll id u there going =>
      have good := inv.good id u there
      refine inv.change there (going ▸ nofun) ⟨good.held, fun running =>
        (nomatch going.symm.trans running),
        fun fenced => (good.doomed fenced).imp (fun claimed => claimed) fun passed =>
          ⟨rfl, passed.2⟩,
        fun key mem => ⟨?_, .inl going⟩, good.single, good.group⟩ rfl
      obtain mem | mem := List.mem_append.mp mem
      · obtain ⟨own, passes⟩ := List.mem_filter.mp mem
        obtain ⟨key', is⟩ | group := good.single
        · obtain rfl : key = key' := List.mem_singleton.mp (is ▸ own)
          refine good.whole (of_pred ?_)
          rw [is, Server.pred, List.all_cons, List.all_nil, Bool.and_true]
          exact passes
        · exact (good.group group).1
      · exact (good.marked key mem).1

theorem start_inv (start : w.Start) : Inv margin w := by
  refine ⟨fun keys c is => ?_, fun id u there => ?_, fun id u there => ?_⟩
  · rw [start.pins] at is
    nomatch is
  · rw [start.units] at there
    nomatch there
  · rw [start.units] at there
    nomatch there

theorem reaches_inv {w₀ : World} (start : w₀.Start)
    (run : Reaches margin (Continues margin) w₀ w) : Inv margin w := by
  induction run with
  | refl => exact start_inv start
  | tail _ step ih => exact ih.step step

end

/-- In every run whose groups open only where the store's continuity check passes: a unit
that wrote a watermark row had no part fenced out, nor had any member whose mark it
carried. -/
theorem watermark_vouches (margin : Nat) {w₀ w : World} (start : w₀.Start)
    (run : Reaches margin (Continues margin) w₀ w) {id : Nat} {u : ChUnit} {key : Key}
    (there : w.units id = some u) (marked : key ∈ u.marked) :
    u.fenced = false ∧ ∀ m ∈ u.members, ∀ v, w.units m = some v → v.fenced = false := by
  have inv := reaches_inv start run
  refine ⟨((inv.good id u there).marked key marked).1, fun m mem v is => ?_⟩
  obtain ⟨v', there', -, whole, -⟩ := inv.members id u there m mem
  obtain rfl := Option.some.inj (is.symm.trans there')
  exact whole

/-! ## A group that forgets -/

/-- Two claims of this run, alive to 400, and no unit yet. -/
def idle : World := ⟨⟨0, fun _ => some ⟨400, false⟩⟩, 0, fun _ => none, fun _ => none⟩

/-- The statement of `orders` lands in time, and the group's unit marks both keys. -/
theorem watermark_vouches_unit : ∃ w u v, Reaches 10 (Continues 10) idle w ∧
    w.units 2 = some u ∧ "orders" ∈ u.marked ∧ 0 ∈ u.members ∧
    w.units 0 = some v ∧ u.fenced = false ∧ v.fenced = false := by
  let orders : ChUnit := ⟨["orders"], ⟨400, 0, 390⟩, true, .handed, [], false, []⟩
  let users : ChUnit := ⟨["users"], ⟨400, 0, 390⟩, false, .handed, [], false, []⟩
  have run : Reaches 10 (Continues 10) idle _ :=
    .head (.opens (i := 0) (k := "orders") rfl rfl) <|
    .head (.opens (i := 1) (k := "users") rfl rfl) <|
    .head (.sends (i := 0) rfl rfl rfl) <|
    .head (.server (.time (t := 200) (by decide))) <|
    .head (.part (i := 0) rfl rfl) <|
    .head (.done (i := 0) rfl rfl) <|
    .head (.hands (i := 0) rfl rfl rfl) <|
    .head (.hands (i := 1) rfl rfl rfl) <|
    .head (.opensGroup (i := 2) rfl (List.cons_ne_nil (0, orders) [(1, users)])
      (by
        intro m mem
        obtain rfl | mem := List.mem_cons.mp mem
        · exact ⟨rfl, rfl⟩
        · obtain rfl := List.mem_singleton.mp mem
          exact ⟨rfl, rfl⟩) (Eq.refl true) rfl) <|
    .head (.closes (i := 2) rfl rfl) <|
    .head (.marksAll (i := 2) rfl rfl) <|
    .refl
  have vouches := @watermark_vouches 10 idle _ ⟨fun _ => rfl, fun _ => rfl⟩ run 2 _ "orders" rfl
    (by decide)
  exact ⟨_, _, _, run, rfl, by decide, by decide, rfl, vouches.1, vouches.2 0 (by decide) _ rfl⟩

/-- The statement of `orders` was fenced out at 395, the renewals came back, and the
group's unit opened on a fresh read. -/
theorem group_open_forgets : ∃ w u v, Reaches 10 (fun _ _ => True) idle w ∧
    w.units 2 = some u ∧ "orders" ∈ u.marked ∧ 0 ∈ u.members ∧
    w.units 0 = some v ∧ v.fenced = true := by
  let orders : ChUnit := ⟨["orders"], ⟨400, 0, 390⟩, true, .handed, [], true, []⟩
  let users : ChUnit := ⟨["users"], ⟨400, 0, 390⟩, false, .handed, [], false, []⟩
  have run : Reaches 10 (fun _ _ => True) idle _ :=
    .head (.opens (i := 0) (k := "orders") rfl rfl) <|
    .head (.opens (i := 1) (k := "users") rfl rfl) <|
    .head (.sends (i := 0) rfl rfl rfl) <|
    .head (.server (.time (t := 395) (by decide))) <|
    .head (.part (i := 0) rfl rfl) <|
    .head (.server (.renew (k := "orders") (t := 700) rfl rfl (by decide))) <|
    .head (.server (.renew (k := "users") (t := 700) rfl rfl (by decide))) <|
    .head (.done (i := 0) rfl rfl) <|
    .head (.hands (i := 0) rfl rfl rfl) <|
    .head (.hands (i := 1) rfl rfl rfl) <|
    .head (.opensGroup (i := 2) rfl (List.cons_ne_nil (0, orders) [(1, users)])
      (by
        intro m mem
        obtain rfl | mem := List.mem_cons.mp mem
        · exact ⟨rfl, rfl⟩
        · obtain rfl := List.mem_singleton.mp mem
          exact ⟨rfl, rfl⟩) trivial rfl) <|
    .head (.closes (i := 2) rfl rfl) <|
    .head (.marksAll (i := 2) rfl rfl) <|
    .refl
  exact ⟨_, _, _, run, rfl, by decide, by decide, rfl, rfl⟩

end Apitap.Clickhouse
