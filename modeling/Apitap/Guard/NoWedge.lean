import Apitap.Guard.Protocol

/-!
# No marker outlives its lease

A marker without a lease row can never be collected: it blocks its table for good. A
drain closes a row only when nothing of its own stands on the table. What it knows of a
member is the names it may still have there; a drop that is answered takes a name off,
and an empty list lets the row go.
-/

namespace Apitap.Guard

/-- Something of this run stands beside the table. -/
def Standing (τ : Token) (t : Table) (s : Dest) : Prop :=
  ∃ n ∈ s.objects, n.table = t ∧ n.token = some τ

/-- A drain's marker has its lease row, unless the run's announcement was torn. -/
def NoWedge (s : Dest) : Prop :=
  ∀ τ t, τ.kind = .cdc → Standing τ t s → τ ∈ s.torn ∨ s.rows t τ ≠ none

/-- What happened to a run's own markers and rows, when others did it. -/
structure Tame (τ : Token) (s s' : Dest) : Prop where
  objects : ∀ n ∈ s'.objects, n.token = some τ → n ∈ s.objects
  rows : ∀ k, s.rows k τ ≠ none → s'.rows k τ ≠ none
  torn : τ ∈ s.torn → τ ∈ s'.torn
  announced : ∀ t, (τ, t) ∈ s'.announced → (τ, t) ∈ s.announced

/-- Calls that neither create a name of this run, nor close a row of it, nor complete
its announcement. -/
def Gentle (τ : Token) (p : Proc) : Call → Prop
  | .createMarker n => n.token ≠ some τ
  | .leaseClose _ => p.token ≠ τ
  | .note _ .announced => p.token ≠ τ
  | _ => True

section

variable {τ σ : Token} {t : Table} {s s' : Dest} {p : Proc} {c : Call} {ans : Answer}

theorem Tame.of_eq (objects : s'.objects ⊆ s.objects)
    (rows : ∀ k, s.rows k τ ≠ none → s'.rows k τ ≠ none) (torn : s.torn ⊆ s'.torn)
    (announced : s'.announced = s.announced) : Tame τ s s' :=
  ⟨fun _ mem _ => objects mem, rows, fun mem => torn mem, fun _ mem => announced ▸ mem⟩

theorem Tame.refl : Tame τ s s :=
  .of_eq (fun _ mem => mem) (fun _ there => there) (fun _ mem => mem) rfl

theorem setRow_some {k : Table} {υ : Token} {row : Row} (u : Table) (there : s.rows u τ ≠ none) :
    (s.setRow k υ (some row)).rows u τ ≠ none := by
  show ite _ _ _ ≠ none
  split
  · nofun
  · exact there

theorem drift_tame (moves : Dest.Drift s s') : Tame τ s s' := by
  cases moves with
  | lapse | renew => exact .of_eq (fun _ mem => mem) setRow_some (fun _ mem => mem) rfl
  | hangUp => exact .of_eq (fun _ mem => mem) (fun _ there => there) (fun _ mem => mem) rfl

theorem openRows_some {keys : List Table} (u : Table) (there : s.rows u τ ≠ none) :
    (s.openRows σ keys).rows u τ ≠ none := by
  show ite _ _ _ ≠ none
  split
  · nofun
  · exact there

theorem serve_tame (gentle : Gentle τ p c) (served : Dest.Serve p s c ans s') : Tame τ s s' := by
  have same {s' : Dest} (objects : s'.objects = s.objects) (rows : s'.rows = s.rows)
      (torn : s'.torn = s.torn) (announced : s'.announced = s.announced) : Tame τ s s' :=
    .of_eq (objects ▸ fun _ mem => mem) (rows ▸ fun _ there => there) (torn ▸ fun _ mem => mem)
      announced
  cases served with
  | listed | noLease | lease | refused | absent | closeFailed | swept | runClosed | locked
  | notOwner | committed | commitUnheard | rolled | rolledBack | failed =>
      exact same rfl rfl rfl rfl
  | @created n =>
      refine ⟨fun m mem own => ?_, fun _ there => there, fun mem => mem, fun _ mem => mem⟩
      obtain rfl | mem := List.mem_cons.mp mem
      · exact absurd own gentle
      · exact mem
  | @createTorn n =>
      refine ⟨fun m mem own => ?_, fun _ there => there, List.mem_cons_of_mem _, fun _ mem => mem⟩
      obtain rfl | mem := List.mem_cons.mp mem
      · exact absurd own gentle
      · exact mem
  | dropped | dropUnheard =>
      exact .of_eq (fun _ mem => (List.mem_filter.mp mem).1)
        (fun _ there => there) (fun _ mem => mem)
        rfl
  | dropFailed =>
      refine .of_eq (fun _ mem => mem) (fun _ there => there) (fun _ mem => ?_) rfl
      show _ ∈ ite _ _ _
      split
      · exact List.mem_cons_of_mem _ mem
      · exact mem
  | opened | openFailed => exact .of_eq (fun _ mem => mem) openRows_some (fun _ mem => mem) rfl
  | taken | takenUnheard => exact .of_eq (fun _ mem => mem) setRow_some (fun _ mem => mem) rfl
  | @closed k =>
      refine .of_eq (fun _ mem => mem) (fun u there => ?_) (fun _ mem => mem) rfl
      show ite _ _ _ ≠ none
      rw [if_neg fun is => gentle is.2.symm]
      exact there
  | @noted t m =>
      cases m with
      | announced =>
          refine ⟨fun _ mem _ => mem, fun _ there => there, fun mem => mem, fun u mem => ?_⟩
          obtain same | mem := List.mem_cons.mp mem
          · exact absurd (Prod.mk.inj same).1.symm gentle
          · exact mem
      | passed | leaving => exact same rfl rfl rfl rfl

theorem NoWedge.of_tame (wedge : NoWedge s) (tame : ∀ τ, τ.kind = .cdc → Tame τ s s') :
    NoWedge s' := by
  intro τ t drain ⟨n, mem, here, own⟩
  obtain torn | there := wedge τ t drain ⟨n, (tame τ drain).objects n mem own, here, own⟩
  · exact .inl ((tame τ drain).torn torn)
  · exact .inr ((tame τ drain).rows t there)

/-- A run's call is gentle to every other run. -/
theorem gentle_of_ne (kind : Kind p c) (other : p ≠ .run τ) : Gentle τ p c := by
  cases p with
  | run σ =>
      have ne : σ ≠ τ := fun is => other (is ▸ rfl)
      cases c with
      | createMarker n => exact fun own => ne (Option.some.inj (kind.symm.trans own))
      | leaseClose k => exact ne
      | note t m =>
          cases m with
          | announced => exact ne
          | _ => trivial
      | _ => trivial
  | unit σ n =>
      cases c with
      | lockRow | commit | rollback => trivial
      | _ => nomatch kind

/-- What a run's environment does to its own markers and rows. -/
theorem around_tame {G : Dest → Prop}
    (moves : (Dest.shared.around Kind G (.run τ)).drift s s') : Tame τ s s' := by
  obtain ⟨moves | ⟨q, other, c, ans, kind, served⟩, -⟩ := moves
  · exact drift_tame moves
  · exact serve_tame (gentle_of_ne kind other) served

/-! ## What a drain knows -/

/-- The run has no other names on the table than these. -/
def Covered (τ : Token) (t : Table) (names : List Name) (s : Dest) : Prop :=
  ∀ n ∈ s.objects, n.table = t → n.token = some τ → n ∈ names

/-- Each of these members has its row, and no other names than listed. -/
def Keeps (τ : Token) (members : List (Table × List Name)) (s : Dest) : Prop :=
  τ ∈ s.torn ∨ ∀ m ∈ members, Covered τ m.1 m.2 s ∧ s.rows m.1 τ ≠ none

theorem Keeps.tame {members : List (Table × List Name)} (keeps : Keeps τ members s)
    (tame : Tame τ s s') : Keeps τ members s' := by
  refine keeps.imp tame.torn fun keeps m mem => ⟨fun n here => ?_, tame.rows _ (keeps m mem).2⟩
  exact fun table own => (keeps m mem).1 n (tame.objects n here own) table own

theorem Keeps.mono {members members' : List (Table × List Name)} (keeps : Keeps τ members s)
    (fewer : ∀ m ∈ members', ∃ names, (m.1, names) ∈ members ∧ names ⊆ m.2) :
    Keeps τ members' s := by
  refine keeps.imp id fun keeps m mem => ?_
  obtain ⟨names, mem, sub⟩ := fewer m mem
  exact ⟨fun n here table own => sub ((keeps _ mem).1 n here table own), (keeps _ mem).2⟩

/-- A drain's standing: what it has on its members, and which of them it has not
announced. -/
structure Here (τ : Token) (members : List (Table × List Name)) (fresh : List Table) (s : Dest) :
    Prop where
  wedge : NoWedge s
  keeps : Keeps τ members s
  fresh : ∀ t ∈ fresh, (τ, t) ∉ s.announced

/-- A drain, with every other run around it. -/
abbrev Around (τ : Token) : Env Dest Call Answer := Dest.shared.around Kind NoWedge (.run τ)

variable {members : List (Table × List Name)} {fresh : List Table} {names : List Name} {n : Name}

theorem Here.drift (here : Here τ members fresh s) (moves : (Around τ).drift s s') :
    Here τ members fresh s' :=
  ⟨moves.2, here.keeps.tame (around_tame moves), fun t mem announced =>
    here.fresh t mem ((around_tame moves).announced t announced)⟩

theorem Here.served (here : Here τ members fresh s) (kind : Kind (.run τ) c)
    (gentle : Gentle τ (.run τ) c) (served : Dest.Serve (.run τ) s c ans s') :
    Here τ members fresh s' := by
  have tame := serve_tame gentle served
  refine ⟨here.wedge.of_tame fun σ _ => ?_, here.keeps.tame tame, fun t mem announced =>
    here.fresh t mem (tame.announced t announced)⟩
  by_cases same : σ = τ
  · exact same ▸ tame
  · exact serve_tame (gentle_of_ne kind fun is => same (Proc.run.inj is).symm) served

theorem Here.mono {members' : List (Table × List Name)} {fresh' : List Table}
    (here : Here τ members fresh s)
    (fewer : ∀ m ∈ members', ∃ names, (m.1, names) ∈ members ∧ names ⊆ m.2)
    (sub : fresh' ⊆ fresh) : Here τ members' fresh' s :=
  ⟨here.wedge, here.keeps.mono fewer, fun t mem => here.fresh t (sub mem)⟩

theorem Here.pure {α : Type} {a : α} {Q : α → Dest → Prop} (here : Here τ members fresh s)
    (post : ∀ s, Here τ members fresh s → Q a s) : (Around τ).Meets NoWedge Q (.pure a) s :=
  .pure (fun _ _ here moves => Here.drift here moves) here (fun _ here => here.wedge) post

/-- A call, and what it leaves for each answer. -/
theorem Here.call {α : Type} {Q : α → Dest → Prop} {k : Answer → Client α}
    (here : Here τ members fresh s)
    (next : ∀ s ans s', Here τ members fresh s → Dest.Serve (.run τ) s c ans s' →
      (Around τ).Meets NoWedge Q (k ans) s') : (Around τ).Meets NoWedge Q (.call c k) s :=
  .call (fun _ _ here moves => Here.drift here moves) here (fun _ here => here.wedge) next

/-- A call that is gentle to the run itself. -/
theorem Here.ask {α : Type} {Q : α → Dest → Prop} {k : Answer → Client α}
    (here : Here τ members fresh s) (kind : Kind (.run τ) c) (gentle : Gentle τ (.run τ) c)
    (next : ∀ ans s, Here τ members fresh s → (Around τ).Meets NoWedge Q (k ans) s) :
    (Around τ).Meets NoWedge Q (.call c k) s :=
  here.call fun _ ans s' here served => next ans s' (here.served kind gentle served)

/-- A program whose calls are gentle. -/
theorem Here.frame {α : Type} {prog : Client α} {C : Call → Prop} (here : Here τ members fresh s)
    (only : prog.Only C) (kind : ∀ c, C c → Kind (.run τ) c)
    (gentle : ∀ c, C c → Gentle τ (.run τ) c) :
    (Around τ).Meets NoWedge (fun _ s => Here τ members fresh s) prog s :=
  .frame only (fun _ _ here moves => here.drift moves)
    (fun _ c _ _ is here served => here.served (kind c is) (gentle c is) served)
    (fun _ here => here.wedge) here

/-! ## Markers come and go -/

theorem covered_drop (covered : Covered τ t (n :: names) s) : Covered τ t names (s.drop σ n) := by
  intro m mem table own
  obtain ⟨mem, other⟩ := List.mem_filter.mp mem
  obtain same | mem := List.mem_cons.mp (covered m mem table own)
  · exact absurd same (of_decide_eq_true other)
  · exact mem

/-- A drop that took effect takes its name off the table's list. -/
theorem Here.drop (here : Here τ ((t, n :: names) :: members) fresh s) :
    Here τ ((t, names) :: members) fresh (s.drop τ n) := by
  have served : Dest.Serve (.run τ) s (.dropObject n) .done (s.drop τ n) := .dropped
  have after := here.served (c := .dropObject n) trivial trivial served
  refine ⟨after.wedge, ?_, after.fresh⟩
  obtain torn | keeps := here.keeps
  · exact .inl torn
  · obtain torn | others := after.keeps
    · exact .inl torn
    · refine .inr fun m mem => ?_
      obtain rfl | mem := List.mem_cons.mp mem
      · obtain ⟨covered, row⟩ := keeps _ List.mem_cons_self
        exact ⟨covered_drop covered, row⟩
      · exact others m (List.mem_cons_of_mem _ mem)

/-- Taking an announcement back: a drop that fails here tears it. -/
theorem meets_dropAll (here : Here τ ((t, names) :: members) fresh s) (mine : t ∈ fresh)
    (own : ∀ n ∈ names, n.table = t ∧ n.token = some τ) :
    (Around τ).Meets NoWedge (fun _ s => Here τ ((t, []) :: members) fresh s)
      (Store.dropAll names) s := by
  induction names generalizing s with
  | nil => exact here.pure fun _ here => here
  | cons n names ih =>
      have rest : ∀ m ∈ names, m.table = t ∧ m.token = some τ := fun m mem =>
        own m (List.mem_cons_of_mem _ mem)
      obtain ⟨table, token⟩ := own n List.mem_cons_self
      refine here.call fun s ans s' here served => ?_
      have after := here.served (c := .dropObject n) trivial trivial served
      cases served with
      | dropped | dropUnheard => exact ih here.drop rest
      | dropFailed =>
          refine ih ⟨after.wedge, .inl ?_, after.fresh⟩ rest
          have back : s.takesBack τ n = true := decide_eq_true ⟨token, table ▸ here.fresh t mine⟩
          show τ ∈ ite _ _ _
          rw [show s.takesBack (Proc.run τ).token n = true from back, if_pos rfl]
          exact List.mem_cons_self
      | failed asked => exact absurd rfl (asked.1 n)
      | rolledBack asked => exact asked.elim nofun fun ⟨_, is⟩ => nomatch is

/-- Dropping markers: those that would not go stay on the list. -/
theorem meets_dropEach {kept : List Name} (here : Here τ ((t, kept ++ names) :: members) fresh s) :
    (Around τ).Meets NoWedge (fun failed s => Here τ ((t, kept ++ failed) :: members) fresh s)
      (Store.dropEach names) s := by
  induction names generalizing kept s with
  | nil => exact here.pure fun _ here => here
  | cons n names ih =>
      have front {s : Dest} (here : Here τ ((t, kept ++ n :: names) :: members) fresh s) :
          Here τ ((t, n :: (kept ++ names)) :: members) fresh s := by
        refine here.mono (fun m mem => ?_) fun _ mem => mem
        obtain rfl | mem := List.mem_cons.mp mem
        · exact ⟨_, List.mem_cons_self, fun x mem => (List.perm_middle.mem_iff).mp mem⟩
        · exact ⟨_, List.mem_cons_of_mem _ mem, fun _ mem => mem⟩
      refine here.call fun s ans s' here served => ?_
      -- a name that may still be there is kept
      have stays {s : Dest} (here : Here τ ((t, kept ++ n :: names) :: members) fresh s) :
          (Around τ).Meets NoWedge (fun failed s => Here τ ((t, kept ++ failed) :: members) fresh s)
            ((Store.dropEach names).bind fun failed => .pure (n :: failed)) s := by
        rw [List.append_cons] at here
        refine (ih here).bind fun failed s here => ?_
        rw [← List.append_cons] at here
        exact here.pure fun _ here => here
      have after := here.served (c := .dropObject n) trivial trivial served
      cases served with
      | dropped =>
          exact (ih (front here).drop).bind fun failed s here => here.pure fun _ here => here
      | dropUnheard | dropFailed => exact stays after
      | failed asked => exact absurd rfl (asked.1 n)
      | rolledBack asked => exact asked.elim nofun fun ⟨_, is⟩ => nomatch is

/-- A new marker goes on the list of its table. -/
theorem Here.create (here : Here τ ((t, names) :: members) fresh s)
    (others : ∀ m ∈ members, m.1 ≠ t) (table : n.table = t) (token : n.token = some τ) :
    Here τ ((t, names ++ [n]) :: members) fresh (s.create n) := by
  refine ⟨fun σ u drain ⟨m, mem, there, own⟩ => ?_, ?_, here.fresh⟩
  · obtain rfl | mem := List.mem_cons.mp mem
    · obtain rfl : τ = σ := Option.some.inj (token.symm.trans own)
      refine here.keeps.imp id fun keeps => ?_
      exact there ▸ table ▸ (keeps _ List.mem_cons_self).2
    · exact here.wedge σ u drain ⟨m, mem, there, own⟩
  · refine here.keeps.imp id fun keeps m mem => ⟨fun x inside at_ own => ?_, ?_⟩
    · obtain rfl | later := List.mem_cons.mp mem
      · obtain rfl | inside := List.mem_cons.mp inside
        · exact List.mem_append_right _ List.mem_cons_self
        · exact List.mem_append_left _ ((keeps _ List.mem_cons_self).1 x inside at_ own)
      · obtain rfl | inside := List.mem_cons.mp inside
        · exact absurd (at_.symm.trans table) (others m later)
        · exact (keeps m (List.mem_cons_of_mem _ later)).1 x inside at_ own
    · obtain rfl | later := List.mem_cons.mp mem
      · exact (keeps _ List.mem_cons_self).2
      · exact (keeps m (List.mem_cons_of_mem _ later)).2

/-- What an announcement of a member leaves: its names, or, taken back, none. -/
def Announced (τ : Token) (t : Table) (members : List (Table × List Name)) (fresh : List Table)
    (out : Option (List Name)) (s : Dest) : Prop :=
  Here τ ((t, out.getD []) :: members) fresh s

theorem meets_announceFrom {ns : List Name} (here : Here τ ((t, names) :: members) fresh s)
    (others : ∀ m ∈ members, m.1 ≠ t) (mine : t ∈ fresh)
    (own : ∀ n ∈ names, n.table = t ∧ n.token = some τ)
    (next : ∀ n ∈ ns, n.table = t ∧ n.token = some τ) :
    (Around τ).Meets NoWedge (Announced τ t members fresh) (Store.announceFrom ns names) s := by
  induction ns generalizing names s with
  | nil => exact here.pure fun _ here => here
  | cons n ns ih =>
      obtain ⟨table, token⟩ := next n List.mem_cons_self
      have back {s : Dest} (here : Here τ ((t, names) :: members) fresh s) :
          (Around τ).Meets NoWedge (Announced τ t members fresh)
            ((Store.dropAll names).bind fun _ => .pure none) s :=
        (meets_dropAll here mine own).bind fun _ s here => here.pure fun _ here => here
      refine here.call fun s ans s' here served => ?_
      cases served with
      | created =>
          refine ih (here.create others table token) (fun m mem => ?_) fun m mem =>
            next m (List.mem_cons_of_mem _ mem)
          obtain mem | mem := List.mem_append.mp mem
          · exact own m mem
          · obtain rfl := List.mem_singleton.mp mem
            exact ⟨table, token⟩
      | createTorn =>
          have after := here.create others table token
          refine back ⟨fun σ u drain standing => ?_, .inl List.mem_cons_self, here.fresh⟩
          exact (after.wedge σ u drain standing).imp (List.mem_cons_of_mem _) id
      | failed => exact back here
      | rolledBack asked => exact asked.elim nofun fun ⟨_, is⟩ => nomatch is

theorem meets_announce {S : Store} {run : RunId} (same : run.token = τ)
    (here : Here τ ((t, []) :: members) fresh s) (others : ∀ m ∈ members, m.1 ≠ t)
    (mine : t ∈ fresh) :
    (Around τ).Meets NoWedge (Announced τ t members fresh) (S.announce t run) s := by
  refine meets_announceFrom here others mine nofun fun n mem => ?_
  exact same ▸ Store.markers_own mem

/-! ## Rows come and go -/

/-- A row may be closed when nothing of the run is left on the table. -/
theorem Here.close {α : Type} {Q : α → Dest → Prop} {k : Answer → Client α}
    (here : Here τ ((t, []) :: members) fresh s) (others : ∀ m ∈ members, m.1 ≠ t)
    (next : ∀ ans s, Here τ members fresh s → (Around τ).Meets NoWedge Q (k ans) s) :
    (Around τ).Meets NoWedge Q (.call (.leaseClose t) k) s := by
  refine here.call fun s ans s' here served => next ans s' ?_
  have less : Here τ members fresh s := here.mono (fun m mem =>
    ⟨m.2, List.mem_cons_of_mem _ mem, fun _ mem => mem⟩) fun _ mem => mem
  cases served with
  | closeFailed | failed => exact less
  | rolledBack asked => exact asked.elim nofun fun ⟨_, is⟩ => nomatch is
  | closed =>
      have rows {σ : Token} {u : Table} (ne : ¬ (u = t ∧ σ = τ)) :
          (s.setRow t τ none).rows u σ = s.rows u σ := if_neg ne
      refine ⟨fun σ u drain ⟨n, mem, there, own⟩ => ?_, ?_, here.fresh⟩
      · by_cases closing : u = t ∧ σ = τ
        · obtain ⟨rfl, rfl⟩ := closing
          refine here.keeps.imp id fun keeps => ?_
          nomatch (keeps _ List.mem_cons_self).1 n mem there own
        · have kept := here.wedge σ u drain ⟨n, mem, there, own⟩
          exact kept.imp id fun row => (rows closing).symm ▸ row
      · refine less.keeps.imp id fun keeps m mem => ⟨(keeps m mem).1, ?_⟩
        have row := (keeps m mem).2
        exact (rows (σ := τ) fun is => others m mem is.1).symm ▸ row

theorem meets_neverAnnounced {ts : List Table} (distinct : ts.Nodup)
    (here : Here τ (ts.map (·, []) ++ members) fresh s) (others : ∀ m ∈ members, m.1 ∉ ts) :
    (Around τ).Meets NoWedge (fun _ s => Here τ members fresh s) (Store.neverAnnounced ts) s := by
  induction ts generalizing s with
  | nil => exact here.pure fun _ here => here
  | cons t ts ih =>
      obtain ⟨once, distinct⟩ := List.nodup_cons.mp distinct
      refine here.close (fun m mem => ?_) fun _ s here =>
        ih distinct here fun m mem inside => others m mem (List.mem_cons_of_mem _ inside)
      obtain mem | mem := List.mem_append.mp mem
      · obtain ⟨u, later, rfl⟩ := List.mem_map.mp mem
        exact fun is => once (is ▸ later)
      · exact fun is => others m mem (is ▸ List.mem_cons_self)

theorem Here.tail {m : Table × List Name} (here : Here τ (m :: members) fresh s) :
    Here τ members fresh s :=
  here.mono (fun m mem => ⟨m.2, List.mem_cons_of_mem _ mem, fun _ mem => mem⟩) fun _ mem => mem

theorem meets_release (here : Here τ ((t, names) :: members) fresh s) :
    (Around τ).Meets NoWedge (fun gone s => ∃ failed, (gone = true → failed = []) ∧
      Here τ ((t, failed) :: members) fresh s) (Store.release names) s := by
  have list : (t, names) = (t, [] ++ names) := rfl
  rw [list] at here
  refine (meets_dropEach here).bind fun failed s here => here.pure fun s here => ?_
  exact ⟨failed, of_decide_eq_true, here⟩

theorem meets_giveBack {run : RunId} {held : List (Table × List Name)}
    (distinct : (held.map (·.1)).Nodup) (here : Here τ held fresh s) :
    (Around τ).Meets NoWedge (fun _ s => NoWedge s) (Store.giveBack run held) s := by
  induction held generalizing s with
  | nil => exact here.pure fun _ here => here.wedge
  | cons member held ih =>
      obtain ⟨t, names⟩ := member
      obtain ⟨once, distinct⟩ := List.nodup_cons.mp distinct
      refine here.ask trivial trivial fun ans s here => ?_
      match ans with
      | .done =>
          refine here.ask trivial trivial fun _ s here => ?_
          refine (meets_release here).bind fun gone s released => ?_
          obtain ⟨failed, clear, here⟩ := released
          cases gone with
          | true =>
              obtain rfl := clear rfl
              refine here.close (fun m mem is => once ?_) fun _ s here => ih distinct here
              exact List.mem_map.mpr ⟨m, mem, is⟩
          | false => exact ih distinct here.tail
      | .names _ | .lease _ | .claim _ | .held _ | .error => exact ih distinct here.tail

theorem meets_giveBackRun {run : RunId} {held : List (Table × List Name)}
    (distinct : (held.map (·.1)).Nodup) (here : Here τ held fresh s) :
    (Around τ).Meets NoWedge (fun _ s => NoWedge s) (Store.giveBackRun run held) s := by
  refine here.ask trivial trivial fun ans s here => ?_
  match ans with
  | .done => exact meets_giveBack distinct here
  | .names _ | .lease _ | .claim _ | .held _ | .error => exact here.pure fun _ here => here.wedge

/-! ## The tenure -/

section tenure

variable {S : Store} {run : RunId} {held : List (Table × List Name)} {ts : List Table}

/-- The order of the members does not matter. -/
theorem Here.perm {members' : List (Table × List Name)} (here : Here τ members fresh s)
    (perm : members'.Perm members) : Here τ members' fresh s :=
  here.mono (fun m mem => ⟨m.2, perm.subset mem, fun _ mem => mem⟩) fun _ mem => mem

/-- A member is announced: its note completes the announcement. -/
theorem Here.announced (here : Here τ members (t :: ts) s) (once : t ∉ ts)
    (served : Dest.Serve (.run τ) s (.note t .announced) ans s') : Here τ members ts s' := by
  cases served with
  | failed asked => exact absurd rfl (asked.2 t .announced)
  | rolledBack asked => exact asked.elim nofun fun ⟨_, is⟩ => nomatch is
  | noted =>
      refine ⟨here.wedge, here.keeps, fun u mem announced => ?_⟩
      obtain same | announced := List.mem_cons.mp announced
      · exact once ((Prod.mk.inj same).2 ▸ mem)
      · exact here.fresh u (List.mem_cons_of_mem _ mem) announced

theorem meets_announceEvery (same : run.token = τ) (distinct : (held.map (·.1) ++ ts).Nodup)
    (here : Here τ (held ++ ts.map (·, [])) ts s) :
    (Around τ).Meets NoWedge (fun out s => NoWedge s ∧
        ∀ all, out = some all → (all.map (·.1)).Nodup ∧ Here τ all [] s)
      (S.announceEvery run ts held) s := by
  induction ts generalizing held s with
  | nil =>
      rw [List.append_nil] at distinct
      rw [List.map_nil, List.append_nil] at here
      refine here.pure fun s here => ⟨here.wedge, fun all is => ?_⟩
      obtain rfl := Option.some.inj is
      exact ⟨distinct, here⟩
  | cons t ts ih =>
      obtain ⟨heldOnce, restOnce, apart⟩ := List.nodup_append.mp distinct
      obtain ⟨once, restOnce⟩ := List.nodup_cons.mp restOnce
      have others : ∀ m ∈ held ++ ts.map (·, ([] : List Name)), m.1 ≠ t := by
        intro m mem is
        obtain mem | mem := List.mem_append.mp mem
        · exact apart m.1 (List.mem_map_of_mem mem) t List.mem_cons_self is
        · obtain ⟨u, later, rfl⟩ := List.mem_map.mp mem
          exact once (is ▸ later)
      have front := here.perm (List.perm_middle (a := (t, []))).symm
      refine (meets_announce same front others List.mem_cons_self).bind fun out s here => ?_
      match out with
      | some names =>
          refine Here.call here fun s ans s' here served => ?_
          refine ih ?_ ((here.announced once served).perm ?_)
          · rw [List.map_append, List.map_singleton, List.append_assoc, List.singleton_append]
            exact distinct
          · rw [List.append_assoc, List.singleton_append]
            exact List.perm_middle
      | none =>
          have rest : Here τ ((t :: ts).map (·, []) ++ held) (t :: ts) s :=
            Here.perm here (List.Perm.cons _ List.perm_append_comm)
          refine (meets_neverAnnounced (List.nodup_cons.mpr ⟨once, restOnce⟩) rest
            fun m mem inside =>
            apart m.1 (List.mem_map_of_mem mem) m.1 inside rfl).bind fun _ s here => ?_
          refine (meets_giveBackRun heldOnce here).bind fun _ s wedge => ?_
          exact .pure (fun _ _ _ moves => moves.2) wedge (fun _ wedge => wedge)
            fun _ wedge => ⟨wedge, nofun⟩

theorem gentle_of_peers (peers : c.Peers) : Gentle τ (.run τ) c := by
  cases c <;> trivial

theorem meets_checkEvery (distinct : (held.map (·.1)).Nodup)
    (here : Here τ held [] s) :
    (Around τ).Meets NoWedge (fun out s => NoWedge s ∧ (out = true → Here τ held [] s))
      (S.checkEvery run held ts) s := by
  induction ts generalizing s with
  | nil => exact here.pure fun _ here => ⟨here.wedge, fun _ => here⟩
  | cons t ts ih =>
      refine (here.frame (Store.only_checkPeers t .keep) (fun _ peers => Kind.of_inner peers.inner)
        fun _ => gentle_of_peers).bind fun out s here => ?_
      match out with
      | .ok () => exact here.ask trivial trivial fun _ s here => ih here
      | .error _ =>
          refine (meets_giveBackRun distinct here).bind fun _ s wedge => ?_
          exact .pure (fun _ _ _ moves => moves.2) wedge (fun _ wedge => wedge)
            fun _ wedge => ⟨wedge, nofun⟩

/-- A drain, from before its lease rows exist. -/
theorem meets_drain (same : run.token = τ) (distinct : ts.Nodup) (wedge : NoWedge s)
    (clear : ∀ n ∈ s.objects, n.token ≠ some τ) (silent : ∀ t, (τ, t) ∉ s.announced) :
    (Around τ).Meets NoWedge (fun _ s => NoWedge s) (S.drain run ts) s := by
  have halts {α : Type} {a : α} {s : Dest} (wedge : NoWedge s) {Q : α → Dest → Prop}
      (post : ∀ s, NoWedge s → Q a s) : (Around τ).Meets NoWedge Q (.pure a) s :=
    .pure (fun _ _ _ moves => moves.2) wedge (fun _ wedge => wedge) post
  refine Env.Meets.bind (Q := fun out s => NoWedge s ∧
    ∀ held, out = some held → (held.map (·.1)).Nodup ∧ Here τ held [] s) ?_ fun out s post => ?_
  · refine .call (P := fun s => NoWedge s ∧ (∀ n ∈ s.objects, n.token ≠ some τ) ∧
      ∀ t, (τ, t) ∉ s.announced) (fun s s' here moves => ?_) ⟨wedge, clear, silent⟩
      (fun _ here => here.1) fun s ans s' here served => ?_
    · have tame := around_tame moves
      exact ⟨moves.2, fun n mem own => here.2.1 n (tame.objects n mem own) own,
        fun t mem => here.2.2 t (tame.announced t mem)⟩
    · have kind : Kind (.run τ) (.leaseOpen ts) := trivial
      have after : NoWedge s' := here.1.of_tame fun σ _ => by
        by_cases is : σ = τ
        · have gentle : Gentle τ (.run τ) (.leaseOpen ts) := trivial
          exact is ▸ serve_tame gentle served
        · exact serve_tame (gentle_of_ne kind fun same => is (Proc.run.inj same).symm) served
      cases served with
      | openFailed | failed => exact halts after fun _ wedge => ⟨wedge, nofun⟩
      | rolledBack asked => exact asked.elim nofun fun ⟨_, is⟩ => nomatch is
      | opened =>
          have ready : Here τ ([] ++ ts.map (·, [])) ts (s.openRows τ ts) := by
            refine ⟨after, .inr fun m mem => ?_, fun t _ => here.2.2 t⟩
            obtain ⟨u, member, rfl⟩ := List.mem_map.mp mem
            refine ⟨fun n mem _ own => absurd own (here.2.1 n mem), ?_⟩
            show ite _ _ _ ≠ none
            split
            · nofun
            · rename_i there
              exact fun gone => there ⟨rfl, member, gone⟩
          have once : (([] : List (Table × List Name)).map (·.1) ++ ts).Nodup := distinct
          refine (meets_announceEvery same once ready).bind fun out s post => ?_
          match out with
          | none => exact halts post.1 fun _ wedge => ⟨wedge, nofun⟩
          | some held =>
              obtain ⟨once, here⟩ := post.2 held rfl
              refine (meets_checkEvery once here).bind fun passed s post => ?_
              cases passed with
              | false => exact halts post.1 fun _ wedge => ⟨wedge, nofun⟩
              | true =>
                  refine (post.2 rfl).pure fun s here => ⟨here.wedge, fun all is => ?_⟩
                  obtain rfl := Option.some.inj is
                  exact ⟨once, here⟩
  · match out with
    | none => exact halts post.1 fun _ wedge => wedge
    | some held => exact meets_giveBackRun (post.2 held rfl).1 (post.2 held rfl).2

end tenure

/-! ## Every process of a fleet -/

theorem start_wedge {s : Dest} (start : s.Start) : NoWedge s := by
  intro τ t _ ⟨n, mem, _, own⟩
  rw [start.objects n mem] at own
  nomatch own

theorem meets_program (F : Fleet) {s : Dest} (start : s.Start) (p : Proc) :
    (Dest.shared.around Kind NoWedge p).Meets NoWedge (fun _ s => NoWedge s) (F.program p) s := by
  -- a process that is no drain keeps every drain's markers and rows
  have others (side : ∀ τ, τ.kind = .cdc → p ≠ .run τ) :
      (Dest.shared.around Kind NoWedge p).Meets NoWedge (fun _ s => NoWedge s) (F.program p) s :=
    .frame (F.only_program p) (fun _ _ _ moves => moves.2)
      (fun _ _ _ _ kind wedge served => wedge.of_tame fun τ drain =>
        serve_tame (gentle_of_ne kind (side τ drain)) served)
      (fun _ wedge => wedge) (start_wedge start)
  cases p with
  | unit τ n => exact others fun _ _ => nofun
  | run τ =>
      by_cases drain : τ.kind = .cdc
      · show (Around τ).Meets _ _ (ite _ _ _) s
        rw [if_pos drain]
        refine meets_drain rfl (F.distinct τ) (start_wedge start) (fun n mem own => ?_) fun t => ?_
        · rw [start.objects n mem] at own
          nomatch own
        · rw [start.announced]
          nofun
      · exact others fun σ is same => drain (Proc.run.inj same ▸ is)

/-- A marker of a drain has its lease row in every state reached, as long as none of the
drain's marker creations failed after taking effect, and every drop with which it took
an announcement back took effect. -/
theorem no_wedge (F : Fleet) {s₀ s : Dest} {p : Proc → Client Unit} (start : s₀.Start)
    (run : Dest.shared.Reaches (s₀, F.program) (s, p)) :
    ∀ τ t, τ.kind = .cdc → τ ∉ s.torn → Standing τ t s → s.rows t τ ≠ none := by
  have alone (s s' : Dest) (wedge : NoWedge s) (moves : Dest.Drift s s') : NoWedge s' :=
    wedge.of_tame fun _ _ => drift_tame moves
  obtain ⟨wedge, -⟩ := run.meets F.only_program (start_wedge start) alone (meets_program F start)
  intro τ t drain whole standing
  exact (wedge τ t drain standing).resolve_left whole

end

/-- An engine that spells markers as they are. -/
def plainStore : Store where
  scanKinds := [.lock, .staging]
  spelling := id
  bulkMine := .keep
  seen := List.mem_cons_self
  safe := nofun

/-- Runs of one table each. -/
def ordersFleet : Fleet where
  store := plainStore
  parent _ := none
  tables _ := ["orders"]
  distinct _ := List.nodup_singleton _
  units _ _ := []

def emptyDest : Dest := ⟨[], fun _ _ => none, fun _ => .fresh, [], fun _ _ => none, [], [], [], []⟩

theorem emptyDest_start : emptyDest.Start :=
  ⟨nofun, fun _ _ => rfl, fun _ => rfl, rfl, fun _ _ => rfl, rfl, rfl, rfl, rfl⟩

def nightly : Token := ⟨1, .cdc, 7, 0⟩

/-- One process of the fleet, while the others do nothing. -/
theorem reaches_alone {F : Fleet} {i : Proc} {s s' : Dest} {q : Client Unit}
    (run : (⟨Dest.Drift, Dest.Serve i⟩ : Env Dest Call Answer).Reaches (s, F.program i) (s', q)) :
    Dest.shared.Reaches (s, F.program) (s', Function.update F.program i q) :=
  Shared.Reaches.process (S := Dest.shared) rfl run

/-- A drain that opened its row and made its first marker. -/
theorem no_wedge_announcing :
    ∃ s p, Dest.shared.Reaches (emptyDest, ordersFleet.program) (s, p) ∧
      s.rows "orders" nightly ≠ none := by
  have run : (⟨Dest.Drift, Dest.Serve (.run nightly)⟩ : Env Dest Call Answer).Reaches
      (emptyDest, ordersFleet.program (.run nightly)) (_, _) :=
    .head (.serve .opened) (.head (.serve .created) .refl)
  refine ⟨_, _, reaches_alone run, no_wedge ordersFleet emptyDest_start (reaches_alone run) nightly
    "orders" rfl nofun ⟨_, List.mem_cons_self, rfl, rfl⟩⟩

/-- The creation of the first marker takes effect and fails; the row is closed over it. -/
theorem torn_announcement_wedges :
    ¬ ∀ (F : Fleet) (s₀ s : Dest) (p : Proc → Client Unit), s₀.Start →
      Dest.shared.Reaches (s₀, F.program) (s, p) →
      ∀ τ t, τ.kind = .cdc → Standing τ t s → s.rows t τ ≠ none := by
  intro holds
  have closing {s : Dest} (free : ¬ s.Locked "orders" nightly) : Dest.Serve (.run nightly) s
      (.leaseClose "orders") .done (s.setRow "orders" nightly none) := .closed free
  have free : ¬ Dest.Locked emptyDest "orders" nightly := fun ⟨_, _, _, live, _⟩ => nomatch live
  have run : (⟨Dest.Drift, Dest.Serve (.run nightly)⟩ : Env Dest Call Answer).Reaches
      (emptyDest, ordersFleet.program (.run nightly)) (_, _) :=
    .head (.serve .opened) (.head (.serve .createTorn) (.head (.serve (closing free)) .refl))
  exact holds ordersFleet _ _ _ emptyDest_start (reaches_alone run) nightly "orders" rfl
    ⟨_, List.mem_cons_self, rfl, rfl⟩ rfl

end Apitap.Guard
