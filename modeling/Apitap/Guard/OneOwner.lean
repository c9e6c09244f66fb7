import Apitap.Guard.NoWedge

/-!
# One owner of a table

A run looks at a table's names only after its own marker stands there. Of two runs that
looked, the one that looked later saw the other's marker, unless it was taken down: by
its owner, which has then left the table, or by a collector, which had claimed its row
first. A run that saw a peer's marker proceeds only over its claim.
-/

namespace Apitap.Guard

/-- Some run claimed this run's row. -/
def Claimed (s : Dest) (t : Table) (τ : Token) : Prop := .claimed t τ ∈ s.events

/-- This run must not share a table with the peer, and is not spawned inside it. -/
def Conflict (run : RunId) (peer : Token) : Prop :=
  run.token ≠ peer ∧ run.parent ≠ some peer ∧ peerBlocks run.token peer = true

/-- A run's own lock on a table. -/
def Fleet.lock (F : Fleet) (τ : Token) (t : Table) : Name := F.store.marker t (F.runId τ) .lock

/-- A run that may proceed on a table: it looked, and every conflicting peer it saw is
claimed. -/
structure Clear (F : Fleet) (a : Token) (t : Table) (s : Dest) : Prop where
  up : F.lock a t ∈ s.up
  saw : ∃ l, s.saw a t = some l ∧ ∀ b, Conflict (F.runId a) b → F.lock b t ∈ l → Claimed s t b

structure Sound (F : Fleet) (s : Dest) : Prop where
  /-- A name its owner has not dropped stands, or its owner is claimed. -/
  visible : ∀ n ∈ s.up, ∀ τ, n.token = some τ → n ∈ s.objects ∨ Claimed s n.table τ
  /-- Of two runs that looked, one saw the other. -/
  apart : ∀ a b t va vb, s.saw a t = some va → s.saw b t = some vb → F.lock b t ∉ va →
    F.lock a t ∉ vb → F.lock a t ∈ s.up → F.lock b t ∈ s.up → a ≠ b →
    Claimed s t a ∨ Claimed s t b
  passed : ∀ a t, (a, t) ∈ s.passed → Clear F a t s

/-- Calls a run may make without breaking the rule. -/
def Fair (F : Fleet) (s : Dest) (a : Token) : Call → Prop
  | .list t kinds => kinds = F.store.scanKinds ∧ (a, t) ∉ s.passed
  | .createMarker n => n = F.lock a n.table → s.saw a n.table = none ∨ n ∈ s.up
  | .dropObject n => (n = F.lock a n.table → (a, n.table) ∉ s.passed) ∧
      ∀ b, n.token = some b → b ≠ a → Claimed s n.table b
  | .note t .passed => Clear F a t s
  | _ => True

section

variable {F : Fleet} {a b : Token} {t : Table} {s s' : Dest} {p : Proc} {c : Call} {ans : Answer}

theorem Claimed.mono (claimed : Claimed s t a) (grown : s.events ⊆ s'.events) : Claimed s' t a :=
  grown claimed

theorem Clear.mono (clear : Clear F a t s) (up : F.lock a t ∈ s.up → F.lock a t ∈ s'.up)
    (saw : s'.saw a t = s.saw a t) (events : s.events ⊆ s'.events) : Clear F a t s' := by
  obtain ⟨l, is, covers⟩ := clear.saw
  exact ⟨up clear.up, l, saw.trans is, fun b conflict mem => (covers b conflict mem).mono events⟩

/-- Nothing the rule speaks of has changed, but for the events. -/
theorem Sound.of_eq (sound : Sound F s) (objects : s'.objects = s.objects) (up : s'.up = s.up)
    (saw : s'.saw = s.saw) (passed : s'.passed = s.passed) (events : s.events ⊆ s'.events) :
    Sound F s' := by
  refine ⟨fun n mem τ own => ?_, fun a b t va vb ha hb => ?_, fun a t mem => ?_⟩
  · exact (sound.visible n (up ▸ mem) τ own).imp (objects ▸ ·) (Claimed.mono · events)
  · rw [up]
    intro na nb ua ub ne
    exact (sound.apart a b t va vb (saw ▸ ha) (saw ▸ hb) na nb ua ub ne).imp
      (Claimed.mono · events) (Claimed.mono · events)
  · exact (sound.passed a t (passed ▸ mem)).mono (up ▸ id) (saw ▸ rfl) events

theorem Sound.drift (sound : Sound F s) (moves : Dest.Drift s s') : Sound F s' := by
  cases moves with
  | lapse | renew | hangUp => exact sound.of_eq rfl rfl rfl rfl fun _ mem => mem

/-- A look at the table: every standing marker is on the list. -/
theorem Sound.listed {l : List Name} (sound : Sound F s) (off : (a, t) ∉ s.passed)
    (all : ∀ n, n ∈ l ↔ n ∈ s.objects ∧ n.table = t ∧ n.artifact ∈ F.store.scanKinds) :
    Sound F { s with saw := fun τ u => if τ = a ∧ u = t then some l else s.saw τ u } := by
  -- a marker that is up but not on the list has been claimed
  have missed {b : Token} (up : F.lock b t ∈ s.up) (out : F.lock b t ∉ l) : Claimed s t b := by
    obtain stands | claimed := sound.visible _ up b rfl
    · exact absurd ((all _).mpr ⟨stands, rfl, F.store.seen⟩) out
    · exact claimed
  refine ⟨sound.visible, fun x y u va vb hx hy nx ny ux uy ne => ?_, fun x u mem => ?_⟩
  · by_cases x_is : x = a ∧ u = t
    · obtain ⟨rfl, rfl⟩ := x_is
      obtain rfl : l = va := Option.some.inj ((if_pos ⟨rfl, rfl⟩).symm.trans hx)
      exact .inr (missed uy nx)
    · by_cases y_is : y = a ∧ u = t
      · obtain ⟨rfl, rfl⟩ := y_is
        obtain rfl : l = vb := Option.some.inj ((if_pos ⟨rfl, rfl⟩).symm.trans hy)
        exact .inl (missed ux ny)
      · exact sound.apart x y u va vb ((if_neg x_is).symm.trans hx) ((if_neg y_is).symm.trans hy)
          nx ny ux uy ne
  · have other : ¬ (x = a ∧ u = t) := fun is => off (is.1 ▸ is.2 ▸ mem)
    exact (sound.passed x u mem).mono id (if_neg other) fun _ mem => mem

/-- A new name; a run's lock comes before its look. -/
theorem Sound.create {n : Name} (sound : Sound F s) (own : n.token = some a)
    (before : n = F.lock a n.table → s.saw a n.table = none ∨ n ∈ s.up) : Sound F (s.create n) := by
  -- a lock that is up now and was looked past was up before
  have was {x : Token} {u : Table} {v : List Name} (up : F.lock x u ∈ n :: s.up)
      (looked : s.saw x u = some v) : F.lock x u ∈ s.up := by
    obtain same | up := List.mem_cons.mp up
    · obtain rfl : x = a := Option.some.inj ((congrArg Name.token same).trans own)
      obtain rfl : u = n.table := congrArg Name.table same
      obtain unlooked | up := before same.symm
      · rw [unlooked] at looked
        nomatch looked
      · exact same ▸ up
    · exact up
  refine ⟨fun m mem τ token => ?_, fun x y u va vb hx hy nx ny ux uy ne => ?_, fun x u mem => ?_⟩
  · obtain rfl | mem := List.mem_cons.mp mem
    · exact .inl List.mem_cons_self
    · exact (sound.visible m mem τ token).imp (List.mem_cons_of_mem _) id
  · exact sound.apart x y u va vb hx hy nx ny (was ux hx) (was uy hy) ne
  · exact (sound.passed x u mem).mono (List.mem_cons_of_mem _) rfl fun _ mem => mem

/-- A drop: of the run's own name once it has left, or of a claimed run's. -/
theorem Sound.drop {n : Name} (sound : Sound F s)
    (left : n = F.lock a n.table → (a, n.table) ∉ s.passed)
    (dead : ∀ b, n.token = some b → b ≠ a → Claimed s n.table b) : Sound F (s.drop a n) := by
  have fewer {m : Name} (mem : m ∈ (s.drop a n).up) : m ∈ s.up ∧ (n.token = some a → m ≠ n) := by
    unfold Dest.drop at mem
    split at mem
    · obtain ⟨mem, other⟩ := List.mem_filter.mp mem
      exact ⟨mem, fun _ => of_decide_eq_true other⟩
    · rename_i foreign
      exact ⟨mem, fun own => absurd own foreign⟩
  have kept {m : Name} (mem : m ∈ s.up) (other : m ≠ n) : m ∈ (s.drop a n).up := by
    unfold Dest.drop
    split
    · exact List.mem_filter.mpr ⟨mem, decide_eq_true other⟩
    · exact mem
  refine ⟨fun m mem τ token => ?_, fun x y u va vb hx hy nx ny ux uy ne => ?_, fun x u mem => ?_⟩
  · obtain ⟨mem, other⟩ := fewer mem
    by_cases same : m = n
    · subst same
      refine .inr (dead τ token fun is => other (is ▸ token) rfl)
    · exact (sound.visible m mem τ token).imp
        (fun stands => List.mem_filter.mpr ⟨stands, decide_eq_true same⟩) id
  · exact sound.apart x y u va vb hx hy nx ny (fewer ux).1 (fewer uy).1 ne
  · refine (sound.passed x u mem).mono (fun up => ?_) rfl fun _ mem => mem
    by_cases same : F.lock x u = n
    · -- its owner has left; anybody else leaves it up
      subst same
      by_cases is : x = a
      · subst is
        exact absurd mem (left rfl)
      · have foreign : ¬ (F.lock x u).token = some a := fun own => is (Option.some.inj own)
        show F.lock x u ∈ ite _ _ _
        rw [if_neg foreign]
        exact up
    · exact kept up same

theorem Sound.note {m : Mark} (sound : Sound F s) (clear : m = .passed → Clear F a t s) :
    Sound F (s.note a t m) := by
  cases m with
  | announced => exact sound.of_eq rfl rfl rfl rfl fun _ mem => mem
  | passed =>
      refine ⟨sound.visible, sound.apart, fun x u mem => ?_⟩
      obtain same | mem := List.mem_cons.mp mem
      · obtain ⟨rfl, rfl⟩ := Prod.mk.inj same
        exact (clear rfl).mono id rfl fun _ mem => mem
      · exact (sound.passed x u mem).mono id rfl fun _ mem => mem
  | leaving =>
      refine ⟨sound.visible, sound.apart, fun x u mem => ?_⟩
      exact (sound.passed x u (List.mem_filter.mp mem).1).mono id rfl fun _ mem => mem

/-- Every call keeps the rule, when the caller's part of it is met. -/
theorem Sound.served (sound : Sound F s) (kind : Kind p c) (fair : Fair F s p.token c)
    (served : Dest.Serve p s c ans s') : Sound F s' := by
  cases served with
  | noLease | lease | refused | absent | closed | closeFailed | swept | runClosed | opened
  | openFailed | locked | notOwner | rolled | rolledBack | failed | dropFailed =>
      exact sound.of_eq rfl rfl rfl rfl fun _ mem => mem
  | taken | takenUnheard | committed | commitUnheard =>
      exact sound.of_eq rfl rfl rfl rfl fun _ mem => List.mem_cons_of_mem _ mem
  | listed all =>
      obtain ⟨rfl, off⟩ := fair
      exact sound.listed off all
  | @created n =>
      have own : n.token = some p.token := by
        cases p with
        | run τ => exact kind
        | unit => nomatch kind
      exact sound.create own fair
  | @createTorn n =>
      have own : n.token = some p.token := by
        cases p with
        | run τ => exact kind
        | unit => nomatch kind
      exact (sound.create own fair).of_eq rfl rfl rfl rfl fun _ mem => mem
  | dropped | dropUnheard => exact sound.drop fair.1 fair.2
  | @noted u m =>
      refine sound.note fun is => ?_
      subst is
      exact fair

/-! ## What a run knows of itself -/

/-- What others leave of a run's own part. -/
structure Quiet (a : Token) (s s' : Dest) : Prop where
  saw : ∀ t, s'.saw a t = s.saw a t
  up : ∀ n, n.token = some a → n ∈ s.up → n ∈ s'.up
  passed : ∀ t, (a, t) ∈ s'.passed → (a, t) ∈ s.passed
  events : s.events ⊆ s'.events

theorem Quiet.of_eq (saw : s'.saw = s.saw) (up : s.up ⊆ s'.up) (passed : s'.passed ⊆ s.passed)
    (events : s.events ⊆ s'.events) : Quiet a s s' :=
  ⟨fun _ => saw ▸ rfl, fun _ _ mem => up mem, fun _ mem => passed mem, events⟩

theorem serve_quiet (kind : Kind p c) (other : p ≠ .run a) (served : Dest.Serve p s c ans s') :
    Quiet a s s' := by
  have ne_of_run : ∀ {τ}, p = .run τ → τ ≠ a := fun is same => other (is.trans (same ▸ rfl))
  cases served with
  | noLease | lease | refused | absent | closed | closeFailed | swept | runClosed | opened
  | openFailed | locked | notOwner | rolled | rolledBack | failed | dropFailed =>
      exact .of_eq rfl (fun _ mem => mem) (fun _ mem => mem) fun _ mem => mem
  | taken | takenUnheard | committed | commitUnheard =>
      exact .of_eq rfl (fun _ mem => mem) (fun _ mem => mem) fun _ mem => List.mem_cons_of_mem _ mem
  | created | createTorn =>
      exact .of_eq rfl (fun _ mem => List.mem_cons_of_mem _ mem) (fun _ mem => mem) fun _ mem => mem
  | listed all =>
      cases p with
      | unit => nomatch kind
      | run τ =>
          refine ⟨fun t => if_neg fun is => ne_of_run rfl is.1.symm, fun _ _ mem => mem,
            fun _ mem => mem, fun _ mem => mem⟩
  | @dropped n | @dropUnheard n =>
      cases p with
      | unit => nomatch kind
      | run τ =>
          refine ⟨fun _ => rfl, fun m own mem => ?_, fun _ mem => mem, fun _ mem => mem⟩
          show m ∈ ite _ _ _
          split
          · rename_i foreign
            refine List.mem_filter.mpr ⟨mem, decide_eq_true fun same => ?_⟩
            exact ne_of_run rfl (Option.some.inj (foreign.symm.trans (same ▸ own)))
          · exact mem
  | @noted t m =>
      cases p with
      | unit => nomatch kind
      | run τ =>
          cases m with
          | announced => exact .of_eq rfl (fun _ mem => mem) (fun _ mem => mem) fun _ mem => mem
          | passed =>
              refine ⟨fun _ => rfl, fun _ _ mem => mem, fun u mem => ?_, fun _ mem => mem⟩
              obtain same | mem := List.mem_cons.mp mem
              · exact absurd (Prod.mk.inj same).1.symm (ne_of_run rfl)
              · exact mem
          | leaving =>
              exact .of_eq rfl (fun _ mem => mem) (fun _ mem => (List.mem_filter.mp mem).1)
                fun _ mem => mem

theorem drift_quiet (moves : Dest.Drift s s') : Quiet a s s' := by
  cases moves with
  | lapse | renew | hangUp =>
      exact .of_eq rfl (fun _ mem => mem) (fun _ mem => mem) fun _ mem => mem

/-- A run, with every other run around it. -/
abbrev Beside (F : Fleet) (a : Token) : Env Dest Call Answer :=
  Dest.shared.around Kind (Sound F) (.run a)

theorem beside_quiet (moves : (Beside F a).drift s s') : Quiet a s s' := by
  obtain ⟨moves | ⟨q, other, c, ans, kind, served⟩, -⟩ := moves
  · exact drift_quiet moves
  · exact serve_quiet kind other served

/-- What a run knows of its own part. -/
inductive Fact where
  /-- It has not looked at the table. -/
  | fresh (t : Table)
  /-- It is not past its check of the table. -/
  | off (t : Table)
  /-- Its name is up. -/
  | up (n : Name)
  /-- Its last look listed these. -/
  | looked (t : Table) (l : List Name)
  | claimed (t : Table) (b : Token)

def Fact.Holds (a : Token) (s : Dest) : Fact → Prop
  | .fresh t => s.saw a t = none
  | .off t => (a, t) ∉ s.passed
  | .up n => n.token = some a ∧ n ∈ s.up
  | .looked t l => s.saw a t = some l
  | .claimed t b => Claimed s t b

/-- A run, amid the others, with what it knows. -/
structure Stand (F : Fleet) (a : Token) (facts : List Fact) (s : Dest) : Prop where
  sound : Sound F s
  facts : ∀ f ∈ facts, f.Holds a s

variable {facts facts' : List Fact} {f : Fact} {n : Name} {α : Type} {Q : α → Dest → Prop}
  {k : Answer → Client α}

theorem Fact.Holds.quiet (holds : f.Holds a s) (quiet : Quiet a s s') : f.Holds a s' := by
  cases f with
  | fresh t => exact (quiet.saw t).trans holds
  | off t => exact fun mem => holds (quiet.passed t mem)
  | up n => exact ⟨holds.1, quiet.up n holds.1 holds.2⟩
  | looked t l => exact (quiet.saw t).trans holds
  | claimed t b => exact Claimed.mono holds quiet.events

theorem Stand.quiet (stand : Stand F a facts s) (quiet : Quiet a s s') (sound : Sound F s') :
    Stand F a facts s' :=
  ⟨sound, fun f mem => (stand.facts f mem).quiet quiet⟩

theorem Stand.less (stand : Stand F a facts s) (fewer : facts' ⊆ facts) : Stand F a facts' s :=
  ⟨stand.sound, fun f mem => stand.facts f (fewer mem)⟩

theorem Stand.cons (stand : Stand F a facts s) (holds : f.Holds a s) :
    Stand F a (f :: facts) s := by
  refine ⟨stand.sound, fun g mem => ?_⟩
  obtain rfl | mem := List.mem_cons.mp mem
  · exact holds
  · exact stand.facts g mem

theorem Stand.drift (stand : Stand F a facts s) (moves : (Beside F a).drift s s') :
    Stand F a facts s' := stand.quiet (beside_quiet moves) moves.2

theorem Stand.pure {x : α} (stand : Stand F a facts s) (post : ∀ s, Stand F a facts s → Q x s) :
    (Beside F a).Meets (Sound F) Q (.pure x) s :=
  .pure (fun _ _ stand moves => Stand.drift stand moves) stand (fun _ stand => stand.sound) post

theorem Stand.call (stand : Stand F a facts s)
    (next : ∀ s ans s', Stand F a facts s → Dest.Serve (.run a) s c ans s' →
      (Beside F a).Meets (Sound F) Q (k ans) s') : (Beside F a).Meets (Sound F) Q (.call c k) s :=
  .call (fun _ _ stand moves => Stand.drift stand moves) stand (fun _ stand => stand.sound) next

/-- A program whose every call keeps what the run knows. -/
theorem Stand.frame {prog : Client α} {C : Call → Prop} (stand : Stand F a facts s)
    (only : prog.Only C)
    (kept : ∀ s c ans s', C c → Stand F a facts s → Dest.Serve (.run a) s c ans s' →
      Stand F a facts s') : (Beside F a).Meets (Sound F) (fun _ s => Stand F a facts s) prog s :=
  .frame only (fun _ _ stand moves => Stand.drift stand moves) kept (fun _ stand => stand.sound)
    stand

/-- Calls of a run that touch nothing of its own part. -/
def Plain : Call → Prop
  | .leaseOpen _ | .leaseGet _ _ | .leaseClaim _ _ | .leaseClose _ | .sweepRun _ _ | .closeRun =>
      True
  | .note _ .announced => True
  | _ => False

theorem Plain.served (plain : Plain c) (sound : Sound F s)
    (served : Dest.Serve (.run a) s c ans s') :
    Sound F s' ∧ Quiet a s s' := by
  have kind : Kind (.run a) c := by cases c <;> trivial
  have fair : Fair F s a c := by
    cases c with
    | note t m => cases m <;> trivial
    | _ => trivial
  refine ⟨sound.served kind fair served, ?_⟩
  cases served with
  | noLease | lease | refused | absent | closed | closeFailed | swept | runClosed | opened
  | openFailed | locked | notOwner | rolled | rolledBack | failed | dropFailed =>
      exact .of_eq rfl (fun _ mem => mem) (fun _ mem => mem) fun _ mem => mem
  | taken | takenUnheard | committed | commitUnheard =>
      exact .of_eq rfl (fun _ mem => mem) (fun _ mem => mem) fun _ mem => List.mem_cons_of_mem _ mem
  | listed | created | createTorn | dropped | dropUnheard => nomatch plain
  | @noted t m =>
      cases m with
      | announced => exact .of_eq rfl (fun _ mem => mem) (fun _ mem => mem) fun _ mem => mem
      | _ => nomatch plain

theorem Stand.plain (stand : Stand F a facts s) (plain : Plain c)
    (served : Dest.Serve (.run a) s c ans s') : Stand F a facts s' := by
  obtain ⟨sound, quiet⟩ := plain.served stand.sound served
  exact stand.quiet quiet sound

theorem Stand.ask (stand : Stand F a facts s) (plain : Plain c)
    (next : ∀ ans s, Stand F a facts s → (Beside F a).Meets (Sound F) Q (k ans) s) :
    (Beside F a).Meets (Sound F) Q (.call c k) s :=
  stand.call fun _ ans s' stand served => next ans s' (stand.plain plain served)

/-! ## Dropping -/

/-- A drop of a claimed peer's name. -/
theorem Stand.dropForeign (stand : Stand F a facts s) (foreign : n.token = some b) (ne : b ≠ a)
    (claimed : Claimed s n.table b) (served : Dest.Serve (.run a) s (.dropObject n) ans s') :
    Stand F a facts s' := by
  have not_own : ¬ n.token = some (Proc.run a).token := fun own =>
    ne (Option.some.inj (foreign.symm.trans own))
  have fair : Fair F s a (.dropObject n) := by
    refine ⟨fun is => absurd (is ▸ rfl) not_own, fun c own _ => ?_⟩
    exact Option.some.inj (foreign.symm.trans own) ▸ claimed
  refine stand.quiet ?_ (stand.sound.served (p := .run a) (c := .dropObject n) trivial fair served)
  cases served with
  | dropFailed => exact .of_eq rfl (fun _ mem => mem) (fun _ mem => mem) fun _ mem => mem
  | failed asked => exact absurd rfl (asked.1 n)
  | rolledBack asked => exact asked.elim nofun fun ⟨_, is⟩ => nomatch is
  | dropped | dropUnheard =>
      refine .of_eq rfl (fun m mem => ?_) (fun _ mem => mem) fun _ mem => mem
      show m ∈ ite _ _ _
      rw [if_neg not_own]
      exact mem

/-- A drop of the run's own name; the other names stay up. -/
theorem Stand.dropOwn (stand : Stand F a facts s) (own : n.token = some a)
    (left : n = F.lock a n.table → (a, n.table) ∉ s.passed) (kept : .up n ∉ facts)
    (served : Dest.Serve (.run a) s (.dropObject n) ans s') : Stand F a facts s' := by
  have fair : Fair F s a (.dropObject n) :=
    ⟨left, fun b is ne => absurd (Option.some.inj (is.symm.trans own)) ne⟩
  have sound := stand.sound.served (p := .run a) (c := .dropObject n) trivial fair served
  refine ⟨sound, fun f mem => ?_⟩
  have holds := stand.facts f mem
  cases served with
  | dropFailed => exact holds.quiet (.of_eq rfl (fun _ mem => mem) (fun _ mem =>
      mem) fun _ mem => mem)
  | failed asked => exact absurd rfl (asked.1 n)
  | rolledBack asked => exact asked.elim nofun fun ⟨_, is⟩ => nomatch is
  | dropped | dropUnheard =>
      cases f with
      | up m =>
          refine ⟨holds.1, ?_⟩
          show m ∈ ite _ _ _
          split
          · refine List.mem_filter.mpr ⟨holds.2, decide_eq_true ?_⟩
            rintro rfl
            exact kept mem
          · exact holds.2
      | _ => exact holds

/-! ## Leaving -/

/-- Drops of the run's own names, on tables it is off. -/
theorem Stand.dropMine {prog : Client α} {names : List Name} (stand : Stand F a facts s)
    (only : prog.Only (Call.Drops names))
    (own : ∀ n ∈ names, n.token = some a ∧ .off n.table ∈ facts ∧ .up n ∉ facts) :
    (Beside F a).Meets (Sound F) (fun _ s => Stand F a facts s) prog s := by
  refine stand.frame only fun s c ans s' drops stand served => ?_
  obtain ⟨n, mem, rfl⟩ := drops
  obtain ⟨token, off, down⟩ := own n mem
  exact stand.dropOwn token (fun _ => stand.facts _ off) down served

/-- The note a release starts with. -/
theorem Stand.leave (stand : Stand F a facts s)
    (served : Dest.Serve (.run a) s (.note t .leaving) ans s') :
    Stand F a (.off t :: facts) s' := by
  have sound := stand.sound.served (p := .run a) (c := .note t .leaving) trivial trivial served
  cases served with
  | failed asked => exact absurd rfl (asked.2 t .leaving)
  | rolledBack asked => exact asked.elim nofun fun ⟨_, is⟩ => nomatch is
  | noted =>
      refine (stand.quiet ?_ sound).cons fun mem => ?_
      · exact .of_eq rfl (fun _ mem => mem) (fun _ mem => (List.mem_filter.mp mem).1)
          fun _ mem => mem
      · exact of_decide_eq_true (List.mem_filter.mp mem).2 rfl

/-- Names a run made on its tables. -/
def Own (a : Token) (held : List (Table × List Name)) : Prop :=
  ∀ m ∈ held, ∀ n ∈ m.2, n.table = m.1 ∧ n.token = some a

theorem meets_release_off {names : List Name} (stand : Stand F a [.off t] s)
    (own : ∀ n ∈ names, n.table = t ∧ n.token = some a) :
    (Beside F a).Meets (Sound F) (fun _ s => Stand F a [] s) (Store.release names) s := by
  have dropped := stand.dropMine (Store.only_dropEach names Call.Drops.of_mem) fun n mem =>
    ⟨(own n mem).2, List.mem_singleton.mpr (congrArg Fact.off (own n mem).1), nofun⟩
  refine dropped.bind fun failed s stand => stand.pure fun s stand => ?_
  exact stand.less (List.nil_subset _)

theorem meets_giveBack_sound {run : RunId} {held : List (Table × List Name)}
    (stand : Stand F a [] s)
    (own : Own a held) :
    (Beside F a).Meets (Sound F) (fun _ s => Stand F a [] s) (Store.giveBack run held) s := by
  induction held generalizing s with
  | nil => exact stand.pure fun _ stand => stand
  | cons member held ih =>
      have rest : Own a held := fun m mem => own m (List.mem_cons_of_mem _ mem)
      refine stand.ask trivial fun ans s stand => ?_
      match ans with
      | .done =>
          refine stand.call fun s ans s' stand served => ?_
          refine (meets_release_off (stand.leave served) (own member List.mem_cons_self)).bind
            fun gone s stand => ?_
          cases gone with
          | true => exact stand.ask trivial fun _ s stand => ih stand rest
          | false => exact ih stand rest
      | .names _ | .lease _ | .claim _ | .held _ | .error => exact ih stand rest

theorem meets_giveBackRun_sound {run : RunId} {held : List (Table × List Name)}
    (stand : Stand F a [] s) (own : Own a held) :
    (Beside F a).Meets (Sound F) (fun _ s => Stand F a [] s) (Store.giveBackRun run held) s := by
  refine stand.ask trivial fun ans s stand => ?_
  match ans with
  | .done => exact meets_giveBack_sound stand own
  | .names _ | .lease _ | .claim _ | .held _ | .error => exact stand.pure fun _ stand => stand

/-! ## Announcing -/

/-- A new name of the run; its lock before its look. -/
theorem Stand.create (stand : Stand F a facts s) (own : n.token = some a)
    (before : n = F.lock a n.table → .fresh n.table ∈ facts ∨ .up n ∈ facts)
    (served : Dest.Serve (.run a) s (.createMarker n) ans s') :
    Stand F a facts s' ∧ (ans = .done → Stand F a (.up n :: facts) s') := by
  have fair : Fair F s a (.createMarker n) := fun is =>
    (before is).imp (stand.facts (.fresh n.table)) fun mem => (stand.facts (.up n) mem).2
  have sound := stand.sound.served (p := .run a) (c := .createMarker n) own fair served
  cases served with
  | failed =>
      exact ⟨stand, nofun⟩
  | rolledBack asked => exact asked.elim nofun fun ⟨_, is⟩ => nomatch is
  | createTorn =>
      refine ⟨stand.quiet ?_ sound, nofun⟩
      exact .of_eq rfl (fun _ mem => List.mem_cons_of_mem _ mem) (fun _ mem => mem) fun _ mem => mem
  | created =>
      have kept : Stand F a facts (s.create n) := stand.quiet
        (.of_eq rfl (fun _ mem => List.mem_cons_of_mem _ mem) (fun _ mem =>
          mem) fun _ mem => mem) sound
      exact ⟨kept, fun _ => kept.cons ⟨own, List.mem_cons_self⟩⟩

/-- What an announcement leaves: its names are up, or it is taken back. -/
def AnnouncedUp (F : Fleet) (a : Token) (facts : List Fact) (ns : List Name)
    (out : Option (List Name)) (s : Dest) : Prop :=
  match out with
  | some names => names = ns ∧ Stand F a (names.map .up ++ facts) s
  | none => Stand F a facts s

theorem meets_announceFrom_sound {ns names : List Name}
    (stand : Stand F a (names.map .up ++ facts) s) (fresh : .fresh t ∈ facts) (off : .off t ∈ facts)
    (down : ∀ n, n.table = t → .up n ∉ facts)
    (own : ∀ n ∈ names ++ ns, n.table = t ∧ n.token = some a) :
    (Beside F a).Meets (Sound F) (AnnouncedUp F a facts (names ++ ns))
      (Store.announceFrom ns names) s := by
  induction ns generalizing names s with
  | nil => exact stand.pure fun s stand => ⟨(List.append_nil names).symm, stand⟩
  | cons n ns ih =>
      obtain ⟨table, token⟩ := own n (List.mem_append_right _ List.mem_cons_self)
      -- the names so far are taken down again
      have back {s : Dest} (stand : Stand F a (names.map .up ++ facts) s) :
          (Beside F a).Meets (Sound F) (AnnouncedUp F a facts (names ++ n :: ns))
            ((Store.dropAll names).bind fun _ => .pure none) s := by
        have stand := stand.less (List.subset_append_right _ _)
        refine (stand.dropMine (Store.only_dropAll names Call.Drops.of_mem) fun m mem =>
          ?_).bind fun _ s stand => stand.pure fun _ stand => stand
        obtain ⟨table, token⟩ := own m (List.mem_append_left _ mem)
        exact ⟨token, table ▸ off, down m table⟩
      refine stand.call fun s ans s' stand served => ?_
      obtain ⟨kept, up⟩ := stand.create token
        (fun _ => .inl (table ▸ List.mem_append_right _ fresh))
        served
      match ans with
      | .done =>
          have stand : Stand F a ((names ++ [n]).map .up ++ facts) s' := by
            refine (up rfl).less ?_
            rw [List.map_append, List.append_assoc]
            exact (List.perm_middle (a := Fact.up n)).subset
          have next := ih stand (by rwa [List.append_assoc])
          rwa [List.append_assoc] at next
      | .names _ | .lease _ | .claim _ | .held _ | .error => exact back kept

theorem meets_announce_sound (stand : Stand F a facts s) (fresh : .fresh t ∈ facts)
    (off : .off t ∈ facts) (down : ∀ n, n.table = t → .up n ∉ facts) :
    (Beside F a).Meets (Sound F)
      (AnnouncedUp F a facts ((markers a.kind).map (F.store.marker t (F.runId a))))
      (F.store.announce t (F.runId a)) s :=
  meets_announceFrom_sound (show Stand F a (([] : List Name).map .up ++ facts) s from stand) fresh
    off
    down fun _ mem => Store.markers_own mem

theorem lock_mem_markers :
    F.lock a t ∈ (markers a.kind).map (F.store.marker t (F.runId a)) := by
  refine List.mem_map.mpr ⟨.lock, ?_, rfl⟩
  unfold markers
  split <;> exact List.mem_cons_self

/-- Every member's lock is up, or everything is given back. -/
theorem meets_announceEvery_sound {held : List (Table × List Name)} {ts : List Table}
    (stand : Stand F a facts s) (distinct : ts.Nodup) (own : Own a held)
    (ready : ∀ t ∈ ts, .fresh t ∈ facts ∧ .off t ∈ facts ∧ ∀ n, n.table = t → .up n ∉ facts) :
    (Beside F a).Meets (Sound F)
      (fun out s => Stand F a [] s ∧ ∀ all, out = some all → Own a all ∧
        Stand F a (ts.map (fun t => .up (F.lock a t)) ++ facts) s)
      (F.store.announceEvery (F.runId a) ts held) s := by
  induction ts generalizing held facts s with
  | nil =>
      refine stand.pure fun s stand => ⟨stand.less (List.nil_subset _), fun all is => ?_⟩
      obtain rfl := Option.some.inj is
      exact ⟨own, stand⟩
  | cons t ts ih =>
      obtain ⟨once, distinct⟩ := List.nodup_cons.mp distinct
      obtain ⟨fresh, off, down⟩ := ready t List.mem_cons_self
      refine (meets_announce_sound stand fresh off down).bind fun out s after => ?_
      match out with
      | some names =>
          obtain ⟨rfl, stand⟩ := after
          have stand : Stand F a (.up (F.lock a t) :: facts) s := by
            refine stand.less fun f mem => ?_
            obtain rfl | mem := List.mem_cons.mp mem
            · exact List.mem_append_left _ (List.mem_map_of_mem lock_mem_markers)
            · exact List.mem_append_right _ mem
          refine stand.ask trivial fun _ s stand => ?_
          refine (ih stand distinct ?_ fun u mem => ?_).mono fun out s post =>
            ⟨post.1, fun all is => ?_⟩
          · intro m mem
            obtain mem | mem := List.mem_append.mp mem
            · exact own m mem
            · obtain rfl := List.mem_singleton.mp mem
              exact fun n mem => Store.markers_own mem
          · obtain ⟨fresh, off, down⟩ := ready u (List.mem_cons_of_mem _ mem)
            refine ⟨List.mem_cons_of_mem _ fresh, List.mem_cons_of_mem _ off, fun n table up => ?_⟩
            obtain same | up := List.mem_cons.mp up
            · obtain rfl := Fact.up.inj same
              have same : t = u := table
              exact once (same ▸ mem)
            · exact down n table up
          · obtain ⟨own, stand⟩ := post.2 all is
            exact ⟨own, stand.less List.perm_middle.symm.subset⟩
      | none =>
          have plain : (Store.neverAnnounced (t :: ts)).Only Plain :=
            Store.only_neverAnnounced _ fun _ => trivial
          refine (Stand.frame after plain fun s c ans s' plain stand served =>
            stand.plain plain served).bind fun _ s stand => ?_
          refine (meets_giveBackRun_sound (stand.less (List.nil_subset _)) own).bind
            fun _ s stand => ?_
          exact stand.pure fun s stand => ⟨stand, nofun⟩

/-! ## Looking -/

/-- What a look says, beside what else the run knows. -/
theorem Stand.look (stand : Stand F a facts s) (off : .off t ∈ facts)
    (kept : ∀ f ∈ facts, ∀ u l, f ≠ .fresh u ∧ f ≠ .looked u l)
    (served : Dest.Serve (.run a) s (.list t F.store.scanKinds) ans s') :
    Stand F a facts s' ∧ ∀ l, ans = .names l → Stand F a (.looked t l :: facts) s' := by
  have sound := stand.sound.served (p := .run a) (c := .list t F.store.scanKinds) trivial
    ⟨rfl, stand.facts (.off t) off⟩ served
  cases served with
  | failed => exact ⟨stand, nofun⟩
  | rolledBack asked => exact asked.elim nofun fun ⟨_, is⟩ => nomatch is
  | @listed _ _ l all =>
      have still : Stand F a facts { s with
          saw := fun τ u => if τ = a ∧ u = t then some l else s.saw τ u } := by
        refine ⟨sound, fun f mem => ?_⟩
        have holds := stand.facts f mem
        cases f with
        | fresh u => exact absurd rfl (kept _ mem u []).1
        | looked u l => exact absurd rfl (kept _ mem u l).2
        | off u => exact holds
        | up n => exact holds
        | claimed u b => exact holds
      refine ⟨still, fun l' is => still.cons ?_⟩
      obtain rfl := Answer.names.inj is
      exact if_pos ⟨rfl, rfl⟩

theorem Stand.claim (stand : Stand F a facts s)
    (served : Dest.Serve (.run a) s (.leaseClaim t b) (.claim .taken) s') :
    Stand F a (.claimed t b :: facts) s' := by
  have after := stand.plain (c := .leaseClaim t b) trivial served
  cases served with
  | taken => exact after.cons List.mem_cons_self

/-- What a run knows after a step of its check, and what more when it succeeded. -/
def Learns (F : Fleet) (a : Token) (facts learnt : List Fact) (out : Except Refusal Unit)
    (s : Dest) : Prop :=
  Stand F a facts s ∧ (out = .ok () → Stand F a (learnt ++ facts) s)

theorem Stand.refuse {e : Refusal} (learnt : List Fact) (stand : Stand F a facts s) :
    (Beside F a).Meets (Sound F) (Learns F a facts learnt) (.pure (.error e)) s :=
  stand.pure fun _ stand => ⟨stand, nofun⟩

/-- A collection that succeeds has claimed its peer. -/
theorem meets_collect_sound {bs : List Blocker} (stand : Stand F a facts s) (ne : b ≠ a)
    (names : ∀ x ∈ bs, x.name.table = t ∧ x.name.token = some b) :
    (Beside F a).Meets (Sound F) (Learns F a facts [.claimed t b]) (Store.collect t b bs) s := by
  refine stand.ask trivial fun ans s stand => ?_
  match ans with
  | .lease (some l) =>
      show Env.Meets _ _ _ (ite _ _ _) s
      split
      · refine stand.call fun s ans s' stand served => ?_
        have after := stand.plain (c := .leaseClaim t b) trivial served
        match ans with
        | .claim .taken =>
            have stand := stand.claim served
            refine stand.ask trivial fun ans s stand => ?_
            match ans with
            | .done =>
                have drops := Store.only_dropEach (bs.map (·.name)) Call.Drops.of_mem
                refine (stand.frame drops fun s c ans s' drop stand served => ?_).bind
                  fun failed s stand => ?_
                · obtain ⟨_, mem, rfl⟩ := drop
                  obtain ⟨x, blocking, rfl⟩ := List.mem_map.mp mem
                  obtain ⟨table, token⟩ := names x blocking
                  refine stand.dropForeign token ne ?_ served
                  exact table ▸ stand.facts (.claimed t b) List.mem_cons_self
                · show Env.Meets _ _ _ (ite _ _ _) s
                  split
                  · exact stand.pure fun s stand =>
                      ⟨stand.less (List.subset_cons_self _ _), fun _ => stand⟩
                  · exact (stand.less (List.subset_cons_self _ _)).refuse _
            | .names _ | .lease _ | .claim _ | .held _ | .error =>
                exact (stand.less (List.subset_cons_self _ _)).refuse _
        | .claim .refused | .claim .absent => exact after.refuse _
        | .names _ | .lease _ | .held _ | .done | .error => exact after.refuse _
      · exact stand.refuse _
  | .lease none => exact stand.refuse _
  | .names _ | .claim _ | .held _ | .done | .error => exact stand.refuse _

theorem meets_collectAll_sound {groups : List (Token × List Blocker)} (stand : Stand F a facts s)
    (names : ∀ g ∈ groups, g.1 ≠ a ∧ ∀ x ∈ g.2, x.name.table = t ∧ x.name.token = some g.1) :
    (Beside F a).Meets (Sound F) (Learns F a facts (groups.map fun g => .claimed t g.1))
      (Store.collectAll t groups) s := by
  induction groups generalizing facts s with
  | nil => exact stand.pure fun s stand => ⟨stand, fun _ => stand⟩
  | cons g groups ih =>
      obtain ⟨ne, mine⟩ := names g List.mem_cons_self
      refine (meets_collect_sound stand ne mine).bind fun out s post => ?_
      match out with
      | .ok () =>
          have rest := ih (post.2 rfl) fun h mem => names h (List.mem_cons_of_mem _ mem)
          refine rest.mono fun out s post => ⟨post.1.less (List.subset_cons_self _ _), fun ok => ?_⟩
          exact (post.2 ok).less List.perm_middle.symm.subset
      | .error e => exact post.1.refuse _

/-- What a check that succeeds leaves: every conflicting peer it saw is claimed. -/
def Looked (F : Fleet) (a : Token) (t : Table) (out : Except Refusal Unit) (s : Dest) : Prop :=
  out = .ok () → ∃ l, s.saw a t = some l ∧
    ∀ b, Conflict (F.runId a) b → F.lock b t ∈ l → Claimed s t b

/-- What a check claims after this listing. -/
def claims (F : Fleet) (a : Token) (t : Table) (l : List Name) : List Fact :=
  (byToken (blockers t (F.runId a) F.store.scanKinds l).blockers).map fun g => .claimed t g.1

/-- A conflicting peer that is seen, and does not refuse the run at once, gets claimed. -/
theorem claimed_of_seen {l : List Name}
    (clear : (blockers t (F.runId a) F.store.scanKinds l).blockers.find?
      (fun x => collectable x = none) = none)
    (conflict : Conflict (F.runId a) b) (seen : F.lock b t ∈ l) :
    .claimed t b ∈ claims F a t l := by
  obtain ⟨other, unrelated, blocks⟩ := conflict
  have mem : .live (F.lock b t) b ∈ (blockers t (F.runId a) F.store.scanKinds l).blockers :=
    blocks_of_listed seen rfl F.store.seen rfl other unrelated blocks
  have asks : collectable (.live (F.lock b t) b) ≠ none := fun is =>
    List.find?_eq_none.mp clear _ mem (decide_eq_true is)
  have asked : collectable (.live (F.lock b t) b) = some b := by
    rw [collectable] at asks ⊢
    split at asks
    · rename_i drain
      exact if_pos drain
    · exact absurd rfl asks
  obtain ⟨group, mem⟩ := byToken_covers mem asked
  exact List.mem_map.mpr ⟨_, mem, rfl⟩

theorem meets_decideScan_sound {l : List Name} {mine : Mine}
    (stand : Stand F a (.looked t l :: facts) s)
    (kept : mine = .deleteLeftovers → F.store.spelling .lock = .lock ∧
      ∀ n, n.artifact ≠ .lock → .up n ∉ facts) :
    (Beside F a).Meets (Sound F) (fun out s => Stand F a facts s ∧ Looked F a t out s)
      (Store.decideScan t mine (blockers t (F.runId a) F.store.scanKinds l)) s := by
  have less : facts ⊆ .looked t l :: facts := List.subset_cons_self _ _
  unfold Store.decideScan
  split
  · exact stand.pure fun s stand => ⟨stand.less less, nofun⟩
  · rename_i clear
    have names : ∀ g ∈ byToken (blockers t (F.runId a) F.store.scanKinds l).blockers,
        g.1 ≠ a ∧ ∀ x ∈ g.2, x.name.table = t ∧ x.name.token = some g.1 := by
      rintro ⟨tok, group⟩ mem
      refine ⟨fun is => ?_, fun x inGroup => ?_⟩
      · obtain ⟨x, mem, asks⟩ := asked_of_byToken mem
        exact (live_of_blockers mem asks).2.2.1 is.symm
      · obtain ⟨mem, asks⟩ := mem_byToken mem x inGroup
        obtain ⟨table, token, -⟩ := live_of_blockers mem asks
        exact ⟨table, token⟩
    refine (meets_collectAll_sound stand names).bind fun out s post => ?_
    match out with
    | .error e => exact post.1.pure fun s stand => ⟨stand.less less, nofun⟩
    | .ok () =>
        have known : Stand F a (claims F a t l ++ .looked t l :: facts) s := post.2 rfl
        have looked {out : Except Refusal Unit} {s : Dest}
            (known : Stand F a (claims F a t l ++ .looked t l :: facts) s) :
            Stand F a facts s ∧ Looked F a t out s := by
          refine ⟨known.less fun f mem => ?_, fun _ => ⟨l, ?_, fun b conflict seen => ?_⟩⟩
          · exact List.mem_append_right _ (List.mem_cons_of_mem _ mem)
          · exact known.facts (.looked t l) (List.mem_append_right _ List.mem_cons_self)
          · have mem := claimed_of_seen clear conflict seen
            exact known.facts (.claimed t b) (List.mem_append_left _ mem)
        show Env.Meets _ _ _ (ite _ _ _) s
        split
        · rename_i drops
          obtain ⟨spelling, safe⟩ := kept drops
          have only := Store.only_dropLeftovers
            (blockers t (F.runId a) F.store.scanKinds l).mineLeftovers Call.Drops.of_mem
          refine (known.frame only fun s c ans s' drop stand served => ?_).mono fun _ s => looked
          obtain ⟨n, mem, rfl⟩ := drop
          obtain ⟨own, kind⟩ := own_of_leftovers mem
          refine stand.dropOwn own (fun is => ?_) (fun up => ?_) served
          · exact absurd ((congrArg Name.artifact is).trans spelling) kind
          · obtain up | up := List.mem_append.mp up
            · obtain ⟨_, -, is⟩ := List.mem_map.mp up
              nomatch is
            · obtain is | up := List.mem_cons.mp up
              · nomatch is
              · exact safe n kind up
        · exact known.pure fun _ => looked

theorem meets_checkPeers_sound {mine : Mine} (stand : Stand F a facts s) (off : .off t ∈ facts)
    (blind : ∀ f ∈ facts, ∀ u l, f ≠ .fresh u ∧ f ≠ .looked u l)
    (kept : mine = .deleteLeftovers → F.store.spelling .lock = .lock ∧
      ∀ n, n.artifact ≠ .lock → .up n ∉ facts) :
    (Beside F a).Meets (Sound F) (fun out s => Stand F a facts s ∧ Looked F a t out s)
      (F.store.checkPeers t (F.runId a) mine) s := by
  refine stand.call fun s ans s' stand served => ?_
  obtain ⟨after, looked⟩ := stand.look off blind served
  match ans with
  | .names l => exact meets_decideScan_sound (looked l rfl) kept
  | .lease _ | .claim _ | .held _ | .done | .error =>
      exact after.pure fun s stand => ⟨stand, nofun⟩

theorem Looked.quiet {out : Except Refusal Unit} (looked : Looked F a t out s)
    (quiet : Quiet a s s') :
    Looked F a t out s' := by
  intro ok
  obtain ⟨l, is, covers⟩ := looked ok
  exact ⟨l, (quiet.saw t).trans is, fun b conflict seen =>
    (covers b conflict seen).mono quiet.events⟩

/-- The note of a check that returned without a refusal. -/
theorem Stand.pass (stand : Stand F a facts s) (looked : Looked F a t (.ok ()) s)
    (up : .up (F.lock a t) ∈ facts) (onward : .off t ∉ facts)
    (next : ∀ ans s, Stand F a facts s → (Beside F a).Meets (Sound F) Q (k ans) s) :
    (Beside F a).Meets (Sound F) Q (.call (.note t .passed) k) s := by
  refine .call (P := fun s => Stand F a facts s ∧ Looked F a t (.ok ()) s)
    (fun s s' here moves => ?_)
    ⟨stand, looked⟩ (fun _ here => here.1.sound) fun s ans s' here served => next ans s' ?_
  · exact ⟨here.1.drift moves, here.2.quiet (beside_quiet moves)⟩
  · obtain ⟨stand, looked⟩ := here
    have clear : Clear F a t s := ⟨(stand.facts (.up (F.lock a t)) up).2, looked rfl⟩
    have sound := stand.sound.served (p := .run a) (c := .note t .passed) trivial clear served
    refine ⟨sound, fun f mem => ?_⟩
    have holds := stand.facts f mem
    cases served with
    | failed asked => exact absurd rfl (asked.2 t .passed)
    | rolledBack asked => exact asked.elim nofun fun ⟨_, is⟩ => nomatch is
    | noted =>
        cases f with
        | off u =>
            refine fun passed => ?_
            obtain same | passed := List.mem_cons.mp passed
            · obtain ⟨-, rfl⟩ := Prod.mk.inj same
              exact onward mem
            · exact holds passed
        | _ => exact holds

/-! ## Every process of a fleet -/

/-- Checks of the tables that are left; the locks stay up throughout. -/
theorem meets_checkEvery_sound {held : List (Table × List Name)} {ts all : List Table}
    (stand : Stand F a (ts.map .off ++ all.map (fun t => .up (F.lock a t))) s) (distinct : ts.Nodup)
    (sub : ts ⊆ all) (own : Own a held) :
    (Beside F a).Meets (Sound F) (fun _ s => Stand F a [] s)
      (F.store.checkEvery (F.runId a) held ts) s := by
  induction ts generalizing s with
  | nil => exact stand.pure fun s stand => stand.less (List.nil_subset _)
  | cons t ts ih =>
      obtain ⟨once, distinct⟩ := List.nodup_cons.mp distinct
      have blind : ∀ f ∈ (t :: ts).map Fact.off ++ all.map (fun t => .up (F.lock a t)), ∀ u l,
          f ≠ .fresh u ∧ f ≠ .looked u l := by
        intro f mem u l
        obtain mem | mem := List.mem_append.mp mem
        · obtain ⟨_, -, rfl⟩ := List.mem_map.mp mem
          exact ⟨fun is => (by cases is), fun is => (by cases is)⟩
        · obtain ⟨_, -, rfl⟩ := List.mem_map.mp mem
          exact ⟨fun is => (by cases is), fun is => (by cases is)⟩
      have keeps : Mine.keep ≠ .deleteLeftovers := by
        intro is
        cases is
      refine (meets_checkPeers_sound stand List.mem_cons_self blind fun is => absurd is keeps).bind
        fun out s post => ?_
      cases out with
      | ok u =>
          refine (post.1.less (List.subset_cons_self _ _)).pass post.2 ?_ ?_ fun _ s stand =>
            ih stand distinct fun _ mem => sub (List.mem_cons_of_mem _ mem)
          · refine List.mem_append_right _ (List.mem_map.mpr ⟨t, sub List.mem_cons_self, rfl⟩)
          · intro mem
            obtain mem | mem := List.mem_append.mp mem
            · obtain ⟨u, later, is⟩ := List.mem_map.mp mem
              exact once (Fact.off.inj is ▸ later)
            · obtain ⟨_, -, is⟩ := List.mem_map.mp mem
              cases is
      | error refusal =>
          refine (meets_giveBackRun_sound (post.1.less (List.nil_subset _)) own).bind
            fun _ s stand => ?_
          exact stand.pure fun _ stand => stand

/-- A run that has done nothing yet. -/
structure Untouched (F : Fleet) (a : Token) (s : Dest) : Prop where
  sound : Sound F s
  saw : ∀ t, s.saw a t = none
  passed : ∀ t, (a, t) ∉ s.passed

theorem Untouched.stand (untouched : Untouched F a s)
    (kinds : ∀ f ∈ facts, ∃ t, f = .fresh t ∨ f = .off t) : Stand F a facts s := by
  refine ⟨untouched.sound, fun f mem => ?_⟩
  obtain ⟨t, rfl | rfl⟩ := kinds f mem
  · exact untouched.saw t
  · exact untouched.passed t

theorem meets_drain_sound (untouched : Untouched F a s) {ts : List Table} (distinct : ts.Nodup) :
    (Beside F a).Meets (Sound F) (fun _ s => Sound F s) (F.store.drain (F.runId a) ts) s := by
  have stand : Stand F a (ts.map .fresh ++ ts.map .off) s := untouched.stand fun f mem => by
    obtain mem | mem := List.mem_append.mp mem
    · obtain ⟨t, -, rfl⟩ := List.mem_map.mp mem
      exact ⟨t, .inl rfl⟩
    · obtain ⟨t, -, rfl⟩ := List.mem_map.mp mem
      exact ⟨t, .inr rfl⟩
  refine Env.Meets.bind (Q := fun out s => Stand F a [] s ∧ ∀ held, out = some held → Own a held) ?_
    fun out s post => ?_
  · refine stand.ask trivial fun ans s stand => ?_
    match ans with
    | .names _ | .lease _ | .claim _ | .held _ | .error =>
        exact stand.pure fun s stand => ⟨stand.less (List.nil_subset _), nofun⟩
    | .done =>
        have ready : ∀ t ∈ ts, .fresh t ∈ ts.map Fact.fresh ++ ts.map .off ∧
            .off t ∈ ts.map Fact.fresh ++ ts.map .off ∧
            ∀ n, n.table = t → .up n ∉ ts.map Fact.fresh ++ ts.map .off := by
          refine fun t mem => ⟨List.mem_append_left _ (List.mem_map_of_mem mem),
            List.mem_append_right _ (List.mem_map_of_mem mem), fun n _ up => ?_⟩
          obtain up | up := List.mem_append.mp up
          · obtain ⟨_, -, is⟩ := List.mem_map.mp up
            nomatch is
          · obtain ⟨_, -, is⟩ := List.mem_map.mp up
            nomatch is
        have empty : Own a [] := nofun
        refine (meets_announceEvery_sound stand distinct empty ready).bind fun out s post => ?_
        match out with
        | none => exact post.1.pure fun _ stand => ⟨stand, nofun⟩
        | some held =>
            obtain ⟨own, stand⟩ := post.2 held rfl
            have locked : Stand F a (ts.map .off ++ ts.map (fun t => .up (F.lock a t))) s := by
              refine stand.less fun f mem => ?_
              obtain mem | mem := List.mem_append.mp mem
              · exact List.mem_append_right _ (List.mem_append_right _ mem)
              · exact List.mem_append_left _ mem
            refine (meets_checkEvery_sound locked distinct (fun _ mem => mem) own).bind
              fun passed s stand => ?_
            cases passed with
            | false => exact stand.pure fun _ stand => ⟨stand, nofun⟩
            | true =>
                refine stand.pure fun _ stand => ⟨stand, fun all is => ?_⟩
                obtain rfl := Option.some.inj is
                exact own
  · match out with
    | none => exact post.1.pure fun _ stand => stand.sound
    | some held =>
        exact (meets_giveBackRun_sound post.1 (post.2 held rfl)).mono fun _ _ stand => stand.sound

theorem meets_bulk_sound (untouched : Untouched F a s) :
    (Beside F a).Meets (Sound F) (fun _ s => Sound F s) (F.store.bulk (F.runId a) t) s := by
  have stand : Stand F a [.fresh t, .off t] s := untouched.stand fun f mem => by
    obtain rfl | mem := List.mem_cons.mp mem
    · exact ⟨t, .inl rfl⟩
    · exact ⟨t, .inr (List.mem_singleton.mp mem)⟩
  have down : ∀ n, n.table = t → .up n ∉ [Fact.fresh t, .off t] := fun n _ up => by
    obtain is | up := List.mem_cons.mp up
    · nomatch is
    · nomatch List.mem_singleton.mp up
  refine (meets_announce_sound stand List.mem_cons_self (List.mem_cons_of_mem _ List.mem_cons_self)
    down).bind fun out s after => ?_
  match out with
  | none => exact Stand.pure after fun _ stand => stand.sound
  | some names =>
      obtain ⟨rfl, stand⟩ := after
      have locked : Stand F a [.off t, .up (F.lock a t)] s := by
        refine stand.less fun f mem => ?_
        obtain rfl | mem := List.mem_cons.mp mem
        · exact List.mem_append_right _ (List.mem_cons_of_mem _ List.mem_cons_self)
        · obtain rfl := List.mem_singleton.mp mem
          exact List.mem_append_left _ (List.mem_map_of_mem lock_mem_markers)
      -- the release, after its note
      have leave {s : Dest} (stand : Stand F a [] s) : (Beside F a).Meets (Sound F)
          (fun _ s => Sound F s) (.call (.note t .leaving) fun _ =>
            (Store.release ((markers a.kind).map (F.store.marker t (F.runId a)))).bind
              fun _ => .pure ()) s := by
        refine stand.call fun s ans s' stand served => ?_
        refine (meets_release_off (stand.leave served) fun _ mem => Store.markers_own mem).bind
          fun _ s stand => ?_
        exact stand.pure fun _ stand => stand.sound
      have blind : ∀ f ∈ [Fact.off t, .up (F.lock a t)], ∀ u l, f ≠ .fresh u ∧ f ≠ .looked u l := by
        intro f mem u l
        obtain rfl | mem := List.mem_cons.mp mem
        · exact ⟨nofun, nofun⟩
        · obtain rfl := List.mem_singleton.mp mem
          exact ⟨nofun, nofun⟩
      refine locked.ask trivial fun _ s stand => ?_
      refine (meets_checkPeers_sound stand List.mem_cons_self blind fun drops =>
        ⟨F.store.safe drops, fun n kind up => ?_⟩).bind fun out s post => ?_
      · obtain is | up := List.mem_cons.mp up
        · nomatch is
        · obtain rfl := Fact.up.inj (List.mem_singleton.mp up)
          exact kind (F.store.safe drops)
      · match out with
        | .error _ => exact leave (post.1.less (List.nil_subset _))
        | .ok () =>
            have stand := post.1.less (List.subset_cons_self _ _)
            refine stand.pass post.2 List.mem_cons_self
              (fun off => nomatch List.mem_singleton.mp off)
              fun _ s stand => ?_
            refine stand.call fun s ans s' stand served => ?_
            obtain ⟨stand, -⟩ := stand.create rfl (fun is => .inr (is ▸ List.mem_cons_self)) served
            exact leave (stand.less (List.nil_subset _))

theorem start_sound (start : s.Start) : Sound F s := by
  refine ⟨fun n mem => ?_, fun a b t va vb looked => ?_, fun a t mem => ?_⟩
  · rw [start.up] at mem
    nomatch mem
  · rw [start.saw] at looked
    nomatch looked
  · rw [start.passed] at mem
    nomatch mem

theorem meets_program_sound (start : s.Start) (p : Proc) :
    (Dest.shared.around Kind (Sound F) p).Meets (Sound F)
    (fun _ s => Sound F s) (F.program p) s := by
  cases p with
  | unit τ n =>
      refine .frame (F.only_program (.unit τ n)) (fun _ _ _ moves => moves.2)
        (fun s c ans s' kind sound served => sound.served kind ?_ served) (fun _ sound => sound)
        (start_sound start)
      cases c <;> trivial
  | run a =>
      have untouched : Untouched F a s :=
        ⟨start_sound start, start.saw a, fun t mem => by rw [start.passed] at mem; nomatch mem⟩
      show (Beside F a).Meets _ _ (ite _ _ _) s
      split
      · exact meets_drain_sound untouched (F.distinct a)
      · split
        · exact meets_bulk_sound untouched
        · exact .pure (fun _ _ _ moves => moves.2) untouched.sound (fun _ sound => sound)
            fun _ sound => sound

/-- What every run keeps, they keep together. -/
theorem reaches_sound {s₀ : Dest} {p : Proc → Client Unit} (start : s₀.Start)
    (run : Dest.shared.Reaches (s₀, F.program) (s, p)) : Sound F s :=
  (run.meets F.only_program (start_sound start) (fun _ _ sound moves => sound.drift moves)
    (meets_program_sound start)).1

/-- Of two runs past their checks that may not share the table, one saw the other. -/
theorem Sound.claimed (sound : Sound F s) (ne : a ≠ b) (a_child : F.parent a ≠ some b)
    (b_child : F.parent b ≠ some a) (conflict : peerBlocks a b = true) (a_past : (a, t) ∈ s.passed)
    (b_past : (b, t) ∈ s.passed) : Claimed s t a ∨ Claimed s t b := by
  obtain ⟨va, a_saw, a_over⟩ := (sound.passed a t a_past).saw
  obtain ⟨vb, b_saw, b_over⟩ := (sound.passed b t b_past).saw
  by_cases a_sees : F.lock b t ∈ va
  · exact .inr (a_over b ⟨ne, a_child, conflict⟩ a_sees)
  · by_cases b_sees : F.lock a t ∈ vb
    · exact .inl (b_over a ⟨ne.symm, b_child, peerBlocks_comm a b ▸ conflict⟩ b_sees)
    · exact sound.apart a b t va vb a_saw b_saw a_sees b_sees (sound.passed a t a_past).up
        (sound.passed b t b_past).up ne

end

end Apitap.Guard
