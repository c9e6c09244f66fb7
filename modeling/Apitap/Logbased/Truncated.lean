import Apitap.Logbased.PartTable

/-!
# The MySQL apply over its own early TRUNCATE

`TRUNCATE TABLE` commits at once, the rest of a window with its watermark. An attempt
that dies in between leaves the table emptied ahead of its watermark, and the next one
starts from that watermark with rows missing. It may stop before the TRUNCATE, and then
it is refused when an event without all its cells is about a missing row that no later
event of its window takes away. What an attempt leaves is part of the source's table, and
all of it as soon as the watermark has passed the TRUNCATE.
-/

namespace Apitap

open Foundation DestPg StreamOp

namespace DestMy

/-- What a unit's connection sees and what others do. -/
structure Session where
  durable : Table
  working : Table

def Session.opened (T : Table) : Session := ⟨T, T⟩

/-- One statement of the unit: a TRUNCATE commits at once, the others wait for the unit. -/
def Session.run (l : Layout) (destTable : String) (σ : Session) (s : Stmt) : Except Error Session :=
  (exec id l destTable s σ.working).map fun T => if s = .truncate then ⟨T, T⟩ else ⟨σ.durable, T⟩

/-- The statements of one table's window. -/
def windowStatements (l : Layout) (destTable : String) (events : List (Nat × StreamOp)) :
    Except Error (List Stmt) := do
  let c ← (Collapser.new l).landAll events
  let w ← c.seal destTable
  return statements w

/-- The log is its commits; a watermark or an end is the number of commits before it. -/
abbrev Log := List (List (Nat × StreamOp))

/-- The events of the commits between a watermark and an end. -/
def window (log : Log) (mark upto : Nat) : List (Nat × StreamOp) :=
  ((log.take upto).drop mark).flatten

/-- The destination, with the furthest end that an attempt was draining to when it truncated. -/
structure MyState where
  table : Table
  mark : Nat
  ahead : Nat

inductive Fate where
  /-- The connection or the process died; what was not committed is gone. -/
  | died
  /-- The unit committed, and its answer came or was lost. -/
  | landed (answered : Bool)
  | refused (e : Error)

/-- The ends that truncating attempts were draining to, after one that ran these statements. -/
def furthest (ran : List Stmt) (upto : Nat) (s : MyState) : Nat :=
  if .truncate ∈ ran then max s.ahead upto else s.ahead

/-- An attempt at the window from the stored watermark up to an end. -/
inductive Attempt (l : Layout) (destTable : String) (log : Log) (s : MyState) (upto : Nat) :
    Fate → MyState → Prop
  | died {pre post : List Stmt} {σ : Session}
      (planned : windowStatements l destTable (window log s.mark upto) = .ok (pre ++ post))
      (ran : pre.foldlM (Session.run l destTable) (.opened s.table) = .ok σ) :
      Attempt l destTable log s upto .died ⟨σ.durable, s.mark, furthest pre upto s⟩
  | landed {stmts : List Stmt} {σ : Session} {answered : Bool}
      (planned : windowStatements l destTable (window log s.mark upto) = .ok stmts)
      (ran : stmts.foldlM (Session.run l destTable) (.opened s.table) = .ok σ) :
      Attempt l destTable log s upto (.landed answered) ⟨σ.working, upto, furthest stmts upto s⟩
  | refused {pre post : List Stmt} {stmt : Stmt} {σ : Session} {e : Error}
      (planned : windowStatements l destTable (window log s.mark upto) = .ok (pre ++ stmt :: post))
      (ran : pre.foldlM (Session.run l destTable) (.opened s.table) = .ok σ)
      (failed : σ.run l destTable stmt = .error e) :
      Attempt l destTable log s upto (.refused e) ⟨σ.durable, s.mark, furthest pre upto s⟩
  | unplanned {e : Error} (failed : windowStatements l destTable
      (window log s.mark upto) = .error e) :
      Attempt l destTable log s upto (.refused e) s

/-- One attempt of a run: where it started, how far it was to go, how it went. -/
structure Try where
  before : MyState
  upto : Nat
  fate : Fate

/-- Attempts one after another, each from the watermark it finds. -/
inductive Run (l : Layout) (destTable : String) (log : Log) : MyState → List Try → MyState → Prop
  | nil {s : MyState} : Run l destTable log s [] s
  | cons {s s₁ s' : MyState} {upto : Nat} {fate : Fate} {tries : List Try} (forward : s.mark ≤ upto)
      (inside : upto ≤ log.length) (attempt : Attempt l destTable log s upto fate s₁)
      (rest : Run l destTable log s₁ tries s') : Run l destTable log s (⟨s, upto, fate⟩ :: tries) s'

section session

variable {l : Layout} {destTable : String} {σ σ' : Session} {pre post : List Stmt}
  {stmt : Stmt} {e : Error}

theorem Session.run_eq_ok (ran : σ.run l destTable stmt = .ok σ') :
    exec id l destTable stmt σ.working = .ok σ'.working ∧
      σ'.durable = if stmt = .truncate then σ'.working else σ.durable := by
  rw [Session.run] at ran
  cases does : exec id l destTable stmt σ.working with
  | error e =>
      rw [does] at ran
      cases ran
  | ok T =>
      rw [does] at ran
      cases ran
      split <;> exact ⟨rfl, rfl⟩

/-- The unit's own view is that of its statements; others see what it truncated. -/
theorem Session.run_all (ran : pre.foldlM (Session.run l destTable) σ = .ok σ') :
    pre.foldlM (fun T s => exec id l destTable s T) σ.working = .ok σ'.working ∧
      σ'.durable = if .truncate ∈ pre then fun _ => none else σ.durable := by
  induction pre generalizing σ with
  | nil =>
      cases ran
      exact ⟨rfl, rfl⟩
  | cons stmt pre ih =>
      rw [List.foldlM_cons] at ran
      obtain ⟨σ₁, first, rest⟩ := bind_eq_ok.mp ran
      obtain ⟨does, durable⟩ := Session.run_eq_ok first
      obtain ⟨does', durable'⟩ := ih rest
      refine ⟨?_, ?_⟩
      · rw [List.foldlM_cons, does]
        exact does'
      · rw [durable', durable]
        by_cases is : stmt = .truncate
        · subst is
          have emptied : σ₁.working = fun _ => none := (Except.ok.inj does).symm
          rw [if_pos rfl, emptied, if_pos List.mem_cons_self, ite_self]
        · rw [if_neg is]
          simp [Ne.symm is]

theorem Session.run_refused (ran : pre.foldlM (Session.run l destTable) σ = .ok σ')
    (failed : σ'.run l destTable stmt = .error e) (post : List Stmt) :
    (pre ++ stmt :: post).foldlM (fun T s => exec id l destTable s T) σ.working = .error e := by
  have refused : exec id l destTable stmt σ'.working = .error e := by
    rw [Session.run] at failed
    cases does : exec id l destTable stmt σ'.working with
    | error e' =>
        rw [does] at failed
        cases failed
        rfl
    | ok T =>
        rw [does] at failed
        cases failed
  rw [List.foldlM_append, (Session.run_all ran).1]
  simp only [bind, Except.bind, List.foldlM_cons, refused]

end session

/-- The keys that a window's events find rows at, from part of the source's table. -/
def FindsAll (l : Layout) (T : Table) (events : List (Nat × StreamOp)) : Prop :=
  Finds l T.present (events.map Prod.snd)

section window

variable {l : Layout} {S S' : SourceTable l} {T : Table} {events : List (Nat × StreamOp)}
  {destTable : String}

/-- Every row the source has is among those at `P`. -/
def Full (S : SourceTable l) (P : Set Key) : Prop := ∀ k, S.rows k ≠ none → k ∈ P

theorem Full.carry {P : Set Key} {op : StreamOp} (full : Full S P) (legal : S.step? op = some S') :
    Full S' (op.carry l P) := by
  cases op with
  | insert row =>
      obtain ⟨k, isRow, -, rfl⟩ := SourceTable.step?_insert legal
      intro i there
      refine ⟨nofun, ?_⟩
      by_cases at_ : i = k
      · exact .inr ⟨at_ ▸ isRow.key, nofun⟩
      · rw [SourceTable.put_rows, Function.update_of_ne at_] at there
        exact .inl ⟨full i there, nofun⟩
  | update old row whole =>
      obtain ⟨j, cur, k, isRow, from_, held, -, -, rfl⟩ := SourceTable.step?_update legal
      intro i there
      refine ⟨nofun, ?_⟩
      by_cases at_ : i = k
      · have onto : (StreamOp.update old row whole).newKey? l = some k :=
          Layout.keyTexts_patch_of_same from_ (S.keyed j cur held).key isRow.key
        exact .inr ⟨at_ ▸ onto, fun _ => ⟨j, full j (by rw [held]; nofun), from_⟩⟩
      · rw [SourceTable.put_rows, Function.update_of_ne at_, SourceTable.erase_rows] at there
        by_cases own : i = j
        · rw [own, Function.update_self] at there
          exact absurd rfl there
        · rw [Function.update_of_ne own] at there
          exact .inl ⟨full i there, fun is => own (Option.some.inj (is.symm.trans from_))⟩
  | delete old =>
      obtain ⟨k, cur, from_, held, rfl⟩ := SourceTable.step?_delete legal
      intro i there
      rw [SourceTable.erase_rows] at there
      by_cases own : i = k
      · rw [own, Function.update_self] at there
        exact absurd rfl there
      · rw [Function.update_of_ne own] at there
        exact ⟨nofun, .inl ⟨full i there, fun is => own (Option.some.inj (is.symm.trans from_))⟩⟩
  | truncate =>
      cases legal
      exact fun k there => absurd rfl there

theorem full_truncate {P : Set Key} (legal : S.step? .truncate = some S') : Full S' P := by
  cases legal
  exact fun k there => absurd rfl there

theorem eq_of_full (part : T.Part S) (full : Full S T.present) : T = S.rows := by
  funext k
  cases held : S.rows k with
  | none => exact part.free held
  | some r =>
      obtain ⟨r', there⟩ := Option.ne_none_iff_exists'.mp (full k (by rw [held]; nofun))
      rw [there, ← held, part k r' there]

theorem Full.run {ops : List StreamOp} {P : Set Key} (legal : S.run? ops = some S')
    (full : Full S P ∨ .truncate ∈ ops) : Full S' (ops.foldl (StreamOp.carry l) P) := by
  induction ops generalizing S P with
  | nil =>
      cases legal
      exact full.resolve_right nofun
  | cons op ops ih =>
      obtain ⟨S₁, first, rest⟩ := Option.bind_eq_some_iff.mp legal
      refine ih rest ?_
      rcases full with full | cut
      · exact .inl (full.carry first)
      · rcases List.mem_cons.mp cut with rfl | later
        · exact .inl (full_truncate first)
        · exact .inr later

/-- What a legal window comes to on part of the source's table. -/
theorem windowStatements_part (part : T.Part S) (legal : S.run? (events.map Prod.snd) = some S')
    (destTable : String) :
    ∃ stmts, windowStatements l destTable events = .ok stmts ∧
      (.truncate ∈ stmts → .truncate ∈ events.map Prod.snd) ∧
      (FindsAll l T events → ∃ T' : Table,
        stmts.foldlM (fun T s => exec id l destTable s T) T = .ok T' ∧ T'.Part S' ∧
          (T = S.rows ∨ .truncate ∈ events.map Prod.snd → T' = S'.rows)) ∧
      (¬FindsAll l T events →
        ∃ kind key, stmts.foldlM (fun T s => exec id l destTable s T) T = .error (missingRow
          destTable kind key)) := by
  obtain ⟨c, landed, sound, rfl, lands, cleared⟩ := (Tracks.new S).landAll_part (.new part) legal
  obtain ⟨settles, refuses⟩ := run_statements sound part.keyed lands destTable
  refine ⟨_, ?_, ?_, fun finds => ?_, fun misses => refuses fun nothing =>
    misses (settled_iff.mpr nothing)⟩
  · rw [windowStatements, landed]
    simp only [bind, Except.bind, sound.seal destTable]
    rfl
  · intro cut
    have truncates : c.finish.truncate = true := by
      by_contra kept
      simp only [statements, if_neg kept] at cut
      revert cut
      split <;> split <;> simp
    rw [Collapser.overlay_new] at cleared
    exact (cleared.mp truncates).resolve_left (fun is => by cases is)
  · obtain ⟨T', ran, part', present⟩ := settles (settled_iff.mp finds)
    refine ⟨T', ran, part', fun all => ?_⟩
    have start : Full S T.present ∨ .truncate ∈ events.map Prod.snd :=
      all.imp_left fun (same : T = S.rows) k there => show T k ≠ none from same ▸ there
    exact eq_of_full part' (present ▸ Full.run legal start)

end window

/-! ## Runs of attempts -/

section runs

variable {l : Layout} {destTable : String} {log : Log} {S₀ Sₑ : SourceTable l} {s s' : MyState}
  {upto : Nat} {fate : Fate} {tries : List Try}

/-- The events of the commits before an end. -/
def before (log : Log) (n : Nat) : List StreamOp := (log.take n).flatten.map Prod.snd

/-- The table is part of the source's at the watermark, and all of it unless an attempt
truncated for a commit past the watermark. -/
structure Sane (log : Log) (S₀ : SourceTable l) (s : MyState) : Prop where
  part : ∃ S, S₀.run? (before log s.mark) = some S ∧ s.table.Part S ∧
    (s.table = S.rows ∨ .truncate ∈ (window log s.mark s.ahead).map Prod.snd)

theorem before_append {mark : Nat} (forward : mark ≤ upto) :
    before log upto = before log mark ++ (window log mark upto).map Prod.snd := by
  have parts := List.take_append_drop mark (log.take upto)
  rw [List.take_take, Nat.min_eq_left forward] at parts
  rw [before, before, window, ← List.map_append, ← List.flatten_append, parts]

theorem legal_before (legal : S₀.run? (log.flatten.map Prod.snd) = some Sₑ) (n : Nat) :
    ∃ S, S₀.run? (before log n) = some S := by
  rw [← List.take_append_drop n log, List.flatten_append, List.map_append,
    SourceTable.run?_append] at legal
  obtain ⟨S, ran, -⟩ := Option.bind_eq_some_iff.mp legal
  exact ⟨S, ran⟩

theorem mem_window {mark : Nat} {op : StreamOp} : op ∈ (window log mark upto).map Prod.snd ↔
    ∃ i commit, mark ≤ i ∧ i < upto ∧ log[i]? = some commit ∧ op ∈ commit.map Prod.snd := by
  have there : ∀ {commit}, commit ∈ (log.take upto).drop mark ↔
      ∃ i, mark ≤ i ∧ i < upto ∧ log[i]? = some commit := by
    intro commit
    rw [List.mem_iff_getElem?]
    simp only [List.getElem?_drop, List.getElem?_take, Option.ite_none_right_eq_some]
    constructor
    · rintro ⟨j, within, is⟩
      exact ⟨mark + j, Nat.le_add_right .., within, is⟩
    · rintro ⟨i, past, within, is⟩
      exact ⟨i - mark, by omega, by rwa [Nat.add_sub_cancel' past]⟩
  rw [window, List.map_flatten, List.mem_flatten]
  simp only [List.mem_map (l := List.drop _ _), there]
  constructor
  · rintro ⟨_, ⟨commit, ⟨i, past, within, is⟩, rfl⟩, mem⟩
    exact ⟨i, commit, past, within, is, mem⟩
  · rintro ⟨i, commit, past, within, is, mem⟩
    exact ⟨_, ⟨commit, ⟨i, past, within, is⟩, rfl⟩, mem⟩

/-- What lies past a watermark lies behind a window as well, unless it is in the window. -/
theorem mem_window_rest {mark far : Nat} {op : StreamOp}
    (there : op ∈ (window log mark far).map Prod.snd)
    (apart : op ∉ (window log mark upto).map Prod.snd) :
    op ∈ (window log upto far).map Prod.snd := by
  obtain ⟨i, commit, past, within, is, mem⟩ := mem_window.mp there
  refine mem_window.mpr ⟨i, commit, ?_, within, is, mem⟩
  by_contra early
  exact apart (mem_window.mpr ⟨i, commit, past, not_le.mp early, is, mem⟩)

theorem mem_window_mono {mark far : Nat} (farther : upto ≤ far) {op : StreamOp}
    (there : op ∈ (window log mark upto).map Prod.snd) :
    op ∈ (window log mark far).map Prod.snd := by
  obtain ⟨i, commit, past, within, rest⟩ := mem_window.mp there
  exact mem_window.mpr ⟨i, commit, past, within.trans_le farther, rest⟩

theorem le_furthest (ran : List Stmt) (upto : Nat) (s : MyState) :
    s.ahead ≤ furthest ran upto s := by
  rw [furthest]
  split
  · exact Nat.le_max_left ..
  · exact Nat.le_refl _

/-- What an attempt that does not commit leaves: the table as it was, or emptied. -/
theorem Sane.given_up (sane : Sane log S₀ s) {pre : List Stmt} {σ : Session}
    (ran : pre.foldlM (Session.run l destTable) (.opened s.table) = .ok σ)
    (ahead : .truncate ∈ pre → .truncate ∈ (window log s.mark upto).map Prod.snd) :
    Sane log S₀ ⟨σ.durable, s.mark, furthest pre upto s⟩ := by
  obtain ⟨S, legal, part, whole⟩ := sane.part
  have durable := (Session.run_all ran).2
  refine ⟨S, legal, ?_⟩
  by_cases cut : .truncate ∈ pre
  · rw [if_pos cut] at durable
    simp only [durable, furthest, if_pos cut]
    exact ⟨nofun, .inr (mem_window_mono (Nat.le_max_right ..) (ahead cut))⟩
  · rw [if_neg cut] at durable
    simp only [durable, furthest, if_neg cut]
    exact ⟨part, whole⟩

/-- An attempt keeps the table sane; it runs through when its window finds its rows, and is
refused for a missing row when it does not. -/
theorem Attempt.spec (attempt : Attempt l destTable log s upto fate s') (sane : Sane log S₀ s)
    (legal : S₀.run? (log.flatten.map Prod.snd) = some Sₑ) (forward : s.mark ≤ upto) :
    Sane log S₀ s' ∧
      (∀ answered, fate = .landed answered → FindsAll l s.table (window log s.mark upto)) ∧
      (∀ e, fate = .refused e → ¬FindsAll l s.table (window log s.mark upto) ∧
        ∃ kind key, e = missingRow destTable kind key) := by
  obtain ⟨S, here, part, whole⟩ := sane.part
  obtain ⟨S', there⟩ := legal_before legal upto
  have replayed : S.run? ((window log s.mark upto).map Prod.snd) = some S' := by
    rw [before_append forward, SourceTable.run?_append, here] at there
    exact there
  obtain ⟨stmts, planned, cuts, lands, refuses⟩ := windowStatements_part part replayed destTable
  cases attempt with
  | @died pre post σ planned' ran =>
      obtain rfl := Except.ok.inj (planned.symm.trans planned')
      exact ⟨sane.given_up ran fun cut => cuts (List.mem_append_left _ cut), nofun, nofun⟩
  | @landed _ σ answered planned' ran =>
      obtain rfl := Except.ok.inj (planned.symm.trans planned')
      have does := (Session.run_all ran).1
      have finds : FindsAll l s.table (window log s.mark upto) := by
        by_contra misses
        obtain ⟨kind, key, refused⟩ := refuses misses
        exact nomatch does.symm.trans refused
      obtain ⟨T', ran', part', whole'⟩ := lands finds
      obtain rfl : σ.working = T' := Except.ok.inj (does.symm.trans ran')
      refine ⟨⟨S', there, part', ?_⟩, fun _ _ => finds, nofun⟩
      by_cases cut : .truncate ∈ (window log s.mark upto).map Prod.snd
      · exact .inl (whole' (.inr cut))
      · refine whole.imp (fun same => whole' (.inl same)) fun later => ?_
        exact mem_window_mono (le_furthest ..) (mem_window_rest later cut)
  | @refused pre post stmt σ e planned' ran failed =>
      obtain rfl := Except.ok.inj (planned.symm.trans planned')
      have does := Session.run_refused ran failed post
      have misses : ¬FindsAll l s.table (window log s.mark upto) := by
        intro finds
        obtain ⟨T', ran', -⟩ := lands finds
        exact nomatch does.symm.trans ran'
      refine ⟨sane.given_up ran fun cut => cuts (List.mem_append_left _ cut), nofun, ?_⟩
      intro e' is
      cases is
      obtain ⟨kind, key, refused⟩ := refuses misses
      exact ⟨misses, kind, key, Except.error.inj (does.symm.trans refused)⟩
  | unplanned failed => exact nomatch planned.symm.trans failed

/-- A run refuses an attempt exactly when one that is not cut short misses a row, and the
table is the source's at every watermark past what it truncated for. -/
theorem Run.spec (run : Run l destTable log s tries s') (sane : Sane log S₀ s)
    (legal : S₀.run? (log.flatten.map Prod.snd) = some Sₑ) :
    Sane log S₀ s' ∧
      ((∀ t ∈ tries, ∀ kind key, t.fate ≠ .refused (missingRow destTable kind key)) ↔
        ∀ t ∈ tries, t.fate ≠ .died → FindsAll l t.before.table (window log t.before.mark
          t.upto)) := by
  induction run with
  | nil => exact ⟨sane, by simp⟩
  | @cons s s₁ s' upto fate tries forward inside attempt rest ih =>
      obtain ⟨sane₁, landed, refused⟩ := attempt.spec sane legal forward
      obtain ⟨sane', verdict⟩ := ih sane₁
      refine ⟨sane', ?_⟩
      rw [List.forall_mem_cons, List.forall_mem_cons, verdict]
      refine and_congr_left fun _ => ?_
      cases fate with
      | died => exact ⟨fun _ alive => absurd rfl alive, fun _ => nofun⟩
      | landed answered => exact ⟨fun _ _ => landed answered rfl, fun _ => nofun⟩
      | refused e =>
          obtain ⟨misses, kind, key, rfl⟩ := refused e rfl
          exact ⟨fun unrefused => absurd rfl (unrefused kind key), fun finds =>
            absurd (finds nofun) misses⟩

/-- Attempts that start from a table equal to the source: one is refused for a missing row
only where it runs through without finding each row; and where the watermark is past every
end an attempt truncated for, the table is the source's. -/
theorem attempts_settle (legal : S₀.run? (log.flatten.map Prod.snd) = some Sₑ)
    (run : Run l destTable log ⟨S₀.rows, 0, 0⟩ tries s) :
    ((∀ t ∈ tries, ∀ kind key, t.fate ≠ .refused (missingRow destTable kind key)) ↔
      ∀ t ∈ tries, t.fate ≠ .died → FindsAll l t.before.table (window log t.before.mark t.upto)) ∧
    (s.ahead ≤ s.mark → ∃ S, S₀.run? (before log s.mark) = some S ∧ s.table = S.rows) := by
  have start : Sane log S₀ ⟨S₀.rows, 0, 0⟩ := ⟨S₀, rfl, fun _ _ held => held, .inl rfl⟩
  obtain ⟨sane, verdict⟩ := run.spec start legal
  refine ⟨verdict, fun caught_up => ?_⟩
  obtain ⟨S, here, -, whole⟩ := sane.part
  refine ⟨S, here, whole.resolve_right fun later => ?_⟩
  obtain ⟨i, commit, past, within, -⟩ := mem_window.mp later
  omega

end runs

/-! ### A row updated, and then truncated away -/

namespace Early

def layout : Layout where
  cols := ["id", "name", "body"]
  oids := [23, 25, 25]
  keyCols := ["id"]
  keyIdx := [0]
  cols_nodup := by decide
  keyIdx_spec := .cons rfl .nil

def row : List Cell := [.text [49], .text [110], .text [98]]

theorem isRow : layout.IsRow [[49]] row := ⟨rfl, by simp [row], rfl⟩

def held : SourceTable layout := (SourceTable.empty layout).put [[49]] row isRow

/-- A new name, the body not shipped. -/
def rename : StreamOp := .update none (.fromCells [.text [49], .text [111], .unchangedToast]) false

def delete : StreamOp := .delete (.fromCells row)

def emptied : Session := ⟨fun _ => none, fun _ => none⟩

/-- The attempt that gets no further than its TRUNCATE. -/
theorem truncates {log : Log} {upto : Nat} {post : List Stmt}
    (planned : windowStatements layout "t" (window log 0 upto) = .ok (.truncate :: post)) :
    Attempt layout "t" log ⟨held.rows, 0, 0⟩ upto .died ⟨emptied.durable, 0, upto⟩ := by
  have ran : [Stmt.truncate].foldlM (Session.run layout "t") (.opened held.rows) = .ok emptied :=
    rfl
  have died := Attempt.died (s := ⟨held.rows, 0, 0⟩) planned ran
  rwa [furthest, if_pos List.mem_cons_self, Nat.zero_max] at died

def deleted : Log := [[(1, rename)], [(2, delete)], [(3, .truncate)]]

def renamed : Stmt := .residue (.maskedUpdate [[49]] [.text [49], .text [111],
    .unchangedToast]) true

/-- A retry that stops at the delete passes over the update, and the next one truncates. -/
theorem attempts_settle_deleted :
    ∃ s, Run layout "t" deleted ⟨held.rows, 0, 0⟩
        [⟨⟨held.rows, 0, 0⟩, 3, .died⟩, ⟨⟨emptied.durable, 0, 3⟩, 2, .landed false⟩,
          ⟨⟨emptied.durable, 2, 3⟩, 3, .landed true⟩] s ∧
      ∃ S, held.run? (before deleted s.mark) = some S ∧ s.table = S.rows := by
  have legal : held.run? (deleted.flatten.map Prod.snd) = some (SourceTable.empty layout) := rfl
  have planned : windowStatements layout "t" (window deleted 0 3) = .ok [.truncate] := rfl
  have retried : windowStatements layout "t" (window deleted 0 2) =
      .ok [renamed, .residue (.delete [[49]]) false] := rfl
  have last : windowStatements layout "t" (window deleted 2 3) = .ok [.truncate] := rfl
  have gone : [renamed, .residue (.delete [[49]]) false].foldlM (Session.run layout "t")
      (.opened emptied.durable) = .ok emptied := by
    have erased : Function.update emptied.durable [[49]] none = emptied.durable :=
      Function.update_eq_self ..
    change Except.ok (ε := Error) (Session.mk emptied.durable (Function.update emptied.durable
      [[49]] none)) = _
    rw [erased]
    rfl
  have cleared : [Stmt.truncate].foldlM (Session.run layout "t") (.opened emptied.durable) = .ok
    emptied := rfl
  have second : Attempt layout "t" deleted ⟨emptied.durable, 0, 3⟩ 2 (.landed false)
      ⟨emptied.durable, 2, 3⟩ := @Attempt.landed layout "t" deleted ⟨emptied.durable, 0, 3⟩ 2 _
        emptied false retried gone
  have third : Attempt layout "t" deleted ⟨emptied.durable, 2, 3⟩ 3 (.landed true)
      ⟨emptied.durable, 3, 3⟩ := @Attempt.landed layout "t" deleted ⟨emptied.durable, 2, 3⟩ 3 _
        emptied true last cleared
  have run := Run.cons (Nat.zero_le 3) (Nat.le_refl 3) (truncates planned)
    (.cons (Nat.zero_le 2) (Nat.le_succ 2) second
      (.cons (Nat.le_succ 2) (Nat.le_refl 3) third .nil))
  exact ⟨_, run, (attempts_settle legal run).2 (Nat.le_refl 3)⟩

def updated : Log := [[(1, rename)], [(2, .truncate)]]

/-- A retry that stops at the update is refused for the row that the first attempt took. -/
theorem shorter_retry_is_refused :
    ∃ tries s, Run layout "t" updated ⟨held.rows, 0, 0⟩ tries s ∧
      held.run? (updated.flatten.map Prod.snd) = some (SourceTable.empty layout) ∧
      ∃ t ∈ tries, ∃ kind key, t.fate = .refused (missingRow "t" kind key) := by
  have planned : windowStatements layout "t" (window updated 0 2) = .ok [.truncate] := rfl
  have retried : windowStatements layout "t" (window updated 0 1) =
      .ok [.residue (.maskedUpdate [[49]] [.text [49], .text [111], .unchangedToast]) false] := rfl
  have missed : (Session.opened emptied.durable).run layout "t"
      (.residue (.maskedUpdate [[49]] [.text [49], .text [111], .unchangedToast]) false) =
      .error (missingRow "t" "masked" [[49]]) := rfl
  have second : Attempt layout "t" updated ⟨emptied.durable, 0, 2⟩ 1
      (.refused (missingRow "t" "masked" [[49]])) ⟨emptied.durable, 0, 2⟩ :=
    @Attempt.refused layout "t" updated ⟨emptied.durable, 0, 2⟩ 1 [] [] _ _ _ retried rfl missed
  exact ⟨_, _, .cons (Nat.zero_le 2) (Nat.le_refl 2) (truncates planned)
    (.cons (Nat.zero_le 1) (Nat.le_succ 1) second .nil), rfl, _, .tail _ (.head _), _, _, rfl⟩

end Early

end DestMy

end Apitap
