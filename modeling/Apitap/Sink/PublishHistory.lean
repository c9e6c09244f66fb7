import Apitap.Sink.Published

/-!
# Runs of a table one after another

Each run finds what the runs before it left, whatever became of them: ended, failed, or cut off at
any request. At every moment the parts of one of them are there, whole.
-/

namespace Apitap.Publish

open Naming (Text size suffix room room_large stem_short artifactMatch_eq)
open Bucket (Drift Serves env)

/-- What a program returned, if it has. -/
def result? {α : Type} : Client α → Option α
  | .pure a => some a
  | .call _ _ => none

/-- One run, as far as it got. -/
structure Attempt where
  staged : List (Text × Bytes)
  rows : Nat
  /-- `none` while it runs, and when it was cut off. -/
  outcome : Option (Except Error Unit)

namespace Attempt

variable (a : Attempt)

/-- It published, and says so. -/
def Landed : Prop := a.rows ≠ 0 ∧ a.outcome = some (.ok ())

/-- It did not fail before its parts were in. -/
def MayHaveMoved (dir : Text) : Prop :=
  a.rows ≠ 0 ∧ (a.outcome = none ∨ a.outcome = some (.ok ()) ∨
    ∃ left, left ≠ [] ∧ a.outcome = some (.error (stalePartsLeft dir left)))

end Attempt

/-- The parts a reader may be to read: those of an attempt behind which none landed, or those
there were before. The newest attempt stands first. -/
inductive Current (dir : Text) (first : List (Text × Bytes)) :
    List Attempt → List (Text × Bytes) → Prop
  | first : Current dir first [] first
  | kept {a : Attempt} {as : List Attempt} {parts : List (Text × Bytes)}
      (current : Current dir first as parts) (not_landed : ¬ a.Landed) :
      Current dir first (a :: as) parts
  | moved {a : Attempt} {as : List Attempt} {gen : Text} (drawn : IsGeneration gen)
      (may : a.MayHaveMoved dir) : Current dir first (a :: as) (generation dir gen a.staged)

/-- A part that attempts may have published. -/
def FromAttempts (dir : Text) (as : List Attempt) (key : Text) (v : Bytes) : Prop :=
  ∃ a ∈ as, ∃ gen, IsGeneration gen ∧ (key, v) ∈ generation dir gen a.staged

/-- What a run staged, under its own directory. -/
structure Staged (site : Site) (token : Text) (staged : List (Text × Bytes)) (s : Bucket) :
    Prop where
  sorted : (staged.map (·.1)).Pairwise (· < ·)
  there : ∀ p ∈ staged, site.staging token <+: p.1 ∧ s.objects p.1 = some p.2
  only : ∀ k, site.staging token <+: k → k ∉ staged.map (·.1) → s.objects k = none
  settled : ∀ k, site.staging token <+: k → ¬ Late s k

/-- Where others may write while a run is on. -/
def Free (site : Site) (token : Text) (quiet : Text → Prop) (key : Text) : Prop :=
  ¬ PartLike site.dir key ∧ ¬ site.staging token <+: key ∧ ¬ quiet key

/-- A table's runs one after another; a quiet key is one that nobody else writes. -/
inductive History (site : Site) (quiet : Text → Prop) (first : Bucket) :
    List Attempt → Bucket → Prop
  | start : History site quiet first [] first
  /-- Others write, and other runs stage their parts. -/
  | others {as : List Attempt} {s s' : Bucket} (before : History site quiet first as s)
      (kept : ∀ k, PartLike site.dir k ∨ quiet k → s'.objects k = s.objects k)
      (later : s.late ⊆ s'.late)
      (foreign : ∀ p ∈ s'.late, PartLike site.dir p.1 ∨ quiet p.1 → p ∈ s.late) :
      History site quiet first as s'
  | land {as : List Attempt} {s : Bucket} {key : Text} {v : Option Bytes}
      (before : History site quiet first as s) (lost : (key, v) ∈ s.late) :
      History site quiet first as (s.set key v)
  | run {as : List Attempt} {s s' : Bucket} {store : Store} {token : Text} {opened rows : Nat}
      {staged : List (Text × Bytes)} {p : Client (Except Error Unit)}
      (before : History site quiet first as s) (has : Staged site token staged s)
      (ran : (env store.dialect (Free site token quiet)).Reaches
        (s, store.finish site token opened rows) (s', p)) :
      History site quiet first (⟨staged, rows, result? p⟩ :: as) s'

/-! ## A run's keys are its own -/

section Site

variable {site : Site} {token key : Text}

theorem stagingRoot_eq (short : size site.bare ≤ room .staging roomy) :
    site.stagingRoot = site.front ++ site.bare ++ (suffix .staging ++ ['/']) := by
  rw [Site.stagingRoot, artifactMatch_eq, stem_short short, List.append_assoc]

/-- Texts that go on with different characters. -/
theorem apart_of_head {front t u : Text} (same : front ++ t = front ++ u) : t.head? = u.head? :=
  congrArg List.head? (List.append_cancel_left same)

theorem staging_eq (short : size site.bare ≤ room .staging roomy) :
    site.staging token =
      site.front ++ site.bare ++ (suffix .staging ++ (['/'] ++ token ++ ['/'])) := by
  rw [Site.staging, stagingRoot_eq short]
  simp only [List.append_assoc]

theorem staged_not_partLike (short : size site.bare ≤ room .staging roomy)
    (under : site.staging token <+: key) : ¬ PartLike site.dir key := by
  intro like
  obtain ⟨back, rfl⟩ := under
  obtain ⟨rest, is⟩ := like.under
  rw [staging_eq short, Site.dir, List.append_assoc (site.front ++ site.bare),
    List.append_assoc (site.front ++ site.bare)] at is
  have heads := apart_of_head is
  cases heads

theorem csv_not_ours (short : size site.bare ≤ room .staging roomy) :
    ¬ PartLike site.dir site.csv ∧ ¬ site.staging token <+: site.csv := by
  constructor
  · intro like
    obtain ⟨rest, is⟩ := like.under
    rw [Site.dir, Site.csv, List.append_assoc (site.front ++ site.bare)] at is
    have heads := apart_of_head is
    cases heads
  · rintro ⟨rest, is⟩
    rw [staging_eq short, Site.csv, List.append_assoc (site.front ++ site.bare)] at is
    have heads := apart_of_head is
    cases heads

end Site

/-- What holds at every moment. -/
structure Kept (site : Site) (quiet : Text → Prop) (first : Bucket) (prev : List (Text × Bytes))
    (as : List Attempt) (s : Bucket) : Prop where
  whole : ∃ parts, Current site.dir prev as parts ∧
    ∀ p ∈ parts, PartLike site.dir p.1 ∧ s.objects p.1 = some p.2 ∧ ¬ Late s p.1
  sourced : ∀ k v, PartLike site.dir k → s.objects k = some v ∨ (k, some v) ∈ s.late →
    (first.objects k = some v ∨ (k, some v) ∈ first.late) ∨ FromAttempts site.dir as k v
  swept : ∀ newer a older, as = newer ++ a :: older → a.Landed → ∀ k v,
    isOwnPart site.dir k = true → s.objects k = some v →
      Late s k ∨ FromAttempts site.dir (newer ++ [a]) k v
  quiet : ∀ k, quiet k → s.objects k = first.objects k ∧ ¬ Late s k

section History

variable {site : Site} {quiet : Text → Prop} {first s s' : Bucket}
  {prev staged : List (Text × Bytes)} {as : List Attempt} {store : Store} {token : Text}
  {opened rows : Nat} {p : Client (Except Error Unit)}

theorem FromAttempts.mono {dir : Text} {bs : List Attempt} {k : Text} {v : Bytes}
    (from_ : FromAttempts dir as k v) (sub : as ⊆ bs) : FromAttempts dir bs k v := by
  obtain ⟨a, mem, found⟩ := from_
  exact ⟨a, sub mem, found⟩

/-- What a run works on in this history. -/
def sceneOf (site : Site) (store : Store) (token : Text) (quiet : Text → Prop)
    (staged : List (Text × Bytes)) (s : Bucket) : Scene where
  dialect := store.dialect
  dir := site.dir
  staging := site.staging token
  csv := site.csv
  others := Free site token quiet
  parts k v := s.objects k = some v ∨ (k, some v) ∈ s.late ∨
    ∃ gen, IsGeneration gen ∧ (k, v) ∈ generation site.dir gen staged
  before := s

open Classical in
/-- All there is to know. -/
noncomputable def knowledge (s : Bucket) : Knowledge :=
  fun k => if Late s k then none else some (s.objects k)

theorem sound_knowledge {sc : Scene} (apart : sc.Apart) (before : sc.before = s)
    (parts : ∀ k v, s.objects k = some v ∨ (k, some v) ∈ s.late → sc.parts k v) :
    Sound sc (knowledge s) s := by
  refine ⟨?_, ?_, fun k v _ there => parts k v (.inl there),
    fun k v _ lost => parts k v (.inr lost),
    fun k away => ⟨by rw [before], before ▸ apart.quiet k away⟩, before ▸ fun _ mem => mem⟩
  · intro k _ v is
    rw [knowledge] at is
    split_ifs at is with late
    exact ⟨Option.some.inj is, late⟩
  · intro k _ is
    by_contra settled
    rw [knowledge, if_neg settled] at is
    cases is

theorem firm_knowledge {parts : List (Text × Bytes)}
    (there : ∀ p ∈ parts, s.objects p.1 = some p.2 ∧ ¬ Late s p.1) : Firm (knowledge s) parts := by
  intro p mem
  obtain ⟨here, settled⟩ := there p mem
  rw [knowledge, if_neg settled, here]

theorem result?_eq_some {r : Except Error Unit} (is : result? p = some r) : p = .pure r := by
  cases p with
  | pure a => rw [Option.some.inj is]
  | call op k => cases is

/-- A part that is known to be there. -/
theorem Sound.there {sc : Scene} {K : Knowledge} {parts : List (Text × Bytes)}
    (sound : Sound sc K s) (firm : Firm K parts) (like : ∀ p ∈ parts, PartLike sc.dir p.1) :
    ∀ p ∈ parts, PartLike sc.dir p.1 ∧ s.objects p.1 = some p.2 ∧ ¬ Late s p.1 := by
  intro p mem
  obtain ⟨here, settled⟩ := sound.known p.1 (.inl (like p mem)) _ (firm p mem)
  exact ⟨like p mem, here, settled⟩

/-- Whichever parts are there after a run, a reader may be to read them. -/
theorem Left.current {sc : Scene} {K : Knowledge} {parts : List (Text × Bytes)}
    {r : Except Error Unit} (left : Left sc parts staged rows r K)
    (before : Current sc.dir prev as parts) (like : ∀ p ∈ parts, PartLike sc.dir p.1) :
    ∃ parts', Current sc.dir prev (⟨staged, rows, some r⟩ :: as) parts' ∧ Firm K parts' ∧
      ∀ p ∈ parts', PartLike sc.dir p.1 := by
  match r with
  | .ok () =>
      rw [Left] at left
      split_ifs at left with empty
      · exact ⟨parts, .kept before fun landed => landed.1 empty, left, like⟩
      · obtain ⟨gen, drawn, firm, -⟩ := left
        exact ⟨_, .moved drawn ⟨empty, .inr (.inl rfl)⟩, firm,
          fun p mem => generation_like drawn mem⟩
  | .error e =>
      obtain firm | ⟨some_, ⟨keys, named, is⟩, gen, drawn, firm⟩ := left
      · refine ⟨parts, .kept before fun landed => ?_, firm, like⟩
        cases landed.2
      · exact ⟨_, .moved drawn ⟨some_, .inr (.inr ⟨keys, named, congrArg _ (congrArg _ is)⟩)⟩, firm,
          fun p mem => generation_like drawn mem⟩

theorem Covers.current {dir : Text} {K : Knowledge} {parts : List (Text × Bytes)}
    (covers : Covers dir parts staged rows K) (before : Current dir prev as parts)
    (like : ∀ p ∈ parts, PartLike dir p.1) :
    ∃ parts', Current dir prev (⟨staged, rows, none⟩ :: as) parts' ∧ Firm K parts' ∧
      ∀ p ∈ parts', PartLike dir p.1 := by
  obtain firm | ⟨some_, gen, drawn, firm⟩ := covers
  · refine ⟨parts, .kept before fun landed => ?_, firm, like⟩
    cases landed.2
  · exact ⟨_, .moved drawn ⟨some_, .inl rfl⟩, firm, fun p mem => generation_like drawn mem⟩

/-- Behind a publish that says so, an old part has a write to come. -/
theorem Replaced.swept {sc : Scene} {K : Knowledge} (replaced : Replaced sc staged K)
    (sound : Sound sc K s) {k : Text} {v : Bytes} (own : isOwnPart sc.dir k = true)
    (there : s.objects k = some v) :
    Late s k ∨ ∃ gen, IsGeneration gen ∧ (k, v) ∈ generation sc.dir gen staged := by
  obtain ⟨gen, drawn, firm, swept⟩ := replaced
  have ours : sc.Ours k := .inl (.of_isOwnPart own)
  by_cases new : k ∈ (generation sc.dir gen staged).map (·.1)
  · obtain ⟨p, mem, rfl⟩ := List.mem_map.mp new
    have known := (sound.known p.1 ours _ (firm p mem)).1
    obtain rfl := Option.some.inj (known.symm.trans there)
    exact .inr ⟨gen, drawn, mem⟩
  · cases is : K k with
    | none => exact .inl (sound.unknown k ours is)
    | some w =>
        have known := (sound.known k ours w is).1
        rw [there] at known
        exact absurd (known ▸ is) (swept k own new v)

/-- Others write, or a write that failed lands. -/
theorem Kept.others (kept : Kept site quiet first prev as s)
    (same : ∀ k, PartLike site.dir k ∨ quiet k → s'.objects k = s.objects k)
    (later : s.late ⊆ s'.late)
    (foreign : ∀ p ∈ s'.late, PartLike site.dir p.1 ∨ quiet p.1 → p ∈ s.late) :
    Kept site quiet first prev as s' := by
  refine ⟨?_, ?_, ?_, ?_⟩
  · obtain ⟨parts, current, whole⟩ := kept.whole
    refine ⟨parts, current, fun p mem => ?_⟩
    obtain ⟨like, there, settled⟩ := whole p mem
    refine ⟨like, (same p.1 (.inl like)).trans there, ?_⟩
    rintro ⟨v, lost⟩
    exact settled ⟨v, foreign _ lost (.inl like)⟩
  · intro k v like there
    apply kept.sourced k v like
    rw [same k (.inl like)] at there
    exact there.imp_right fun lost => foreign _ lost (.inl like)
  · intro newer a older is landed k v own there
    rw [same k (.inl (.of_isOwnPart own))] at there
    refine (kept.swept newer a older is landed k v own there).imp_left ?_
    rintro ⟨w, lost⟩
    exact ⟨w, later lost⟩
  · intro k is
    obtain ⟨there, settled⟩ := kept.quiet k is
    refine ⟨(same k (.inr is)).trans there, ?_⟩
    rintro ⟨v, lost⟩
    exact settled ⟨v, foreign _ lost (.inr is)⟩

theorem Kept.land {key : Text} {v : Option Bytes} (kept : Kept site quiet first prev as s)
    (lost : (key, v) ∈ s.late) : Kept site quiet first prev as (s.set key v) := by
  have other {k : Text} (settled : ¬ Late s k) : (s.set key v).objects k = s.objects k :=
    set_other fun same => settled ⟨v, same ▸ lost⟩
  refine ⟨?_, ?_, ?_, ?_⟩
  · obtain ⟨parts, current, whole⟩ := kept.whole
    refine ⟨parts, current, fun p mem => ?_⟩
    obtain ⟨like, there, settled⟩ := whole p mem
    exact ⟨like, (other settled).trans there, settled⟩
  · intro k w like there
    apply kept.sourced k w like
    obtain here | late := there
    · obtain rfl | differ := eq_or_ne k key
      · rw [set_same] at here
        exact .inr (here ▸ lost)
      · rw [set_other differ] at here
        exact .inl here
    · exact .inr late
  · intro newer a older is landed k w own there
    obtain rfl | differ := eq_or_ne k key
    · exact .inl ⟨v, lost⟩
    · rw [set_other differ] at there
      exact kept.swept newer a older is landed k w own there
  · intro k is
    obtain ⟨there, settled⟩ := kept.quiet k is
    exact ⟨(other settled).trans there, settled⟩

variable (short : size site.bare ≤ room .staging roomy)

include short

theorem apart_sceneOf (settled : ∀ k, quiet k → ¬ Late s k) :
    (sceneOf site store token quiet staged s).Apart := by
  have csv : ¬ PartLike site.dir site.csv ∧ ¬ site.staging token <+: site.csv :=
    csv_not_ours short
  refine ⟨?_, ?_, ?_, ?_⟩
  · rintro k ⟨unlike, elsewhere, -⟩ (like | under)
    · exact unlike like
    · exact elsewhere under
  · rintro (like | under)
    · exact csv.1 like
    · exact csv.2 under
  · exact fun k under => staged_not_partLike short under
  · rintro k ⟨not_ours, not_others, -⟩
    obtain ⟨unlike, elsewhere⟩ := not_or.mp not_ours
    by_contra late
    exact not_others ⟨unlike, elsewhere, fun is => settled k is late⟩

/-- Keys that stay as they are, as long as nobody else writes them. -/
structure Quiet (site : Site) (quiet : Text → Prop) : Prop where
  parts : ∀ k, quiet k → ¬ PartLike site.dir k
  csv : ∀ k, quiet k → k ≠ site.csv
  staging : ∀ token k, quiet k → ¬ site.staging token <+: k

/-- One run more. -/
theorem Kept.run (calm : Quiet site quiet) (kept : Kept site quiet first prev as s)
    (has : Staged site token staged s)
    (ran : (env store.dialect (Free site token quiet)).Reaches
      (s, store.finish site token opened rows) (s', p)) :
    Kept site quiet first prev (⟨staged, rows, result? p⟩ :: as) s' := by
  let sc := sceneOf site store token quiet staged s
  have apart : sc.Apart := apart_sceneOf short fun k is => (kept.quiet k is).2
  have sound : Sound sc (knowledge s) s :=
    sound_knowledge apart rfl fun k v => Or.imp_right .inl
  obtain ⟨parts, before, whole⟩ := kept.whole
  have like : ∀ p ∈ parts, PartLike site.dir p.1 := fun p mem => (whole p mem).1
  have ready : Ready sc parts staged (knowledge s) := by
    refine ⟨firm_knowledge fun p mem => (whole p mem).2, like, has.sorted, fun p mem => ?_,
      fun k under out => ?_, fun gen drawn p mem => .inr (.inr ⟨gen, drawn, mem⟩)⟩
    · obtain ⟨under, there⟩ := has.there p mem
      have firm : Firm (knowledge s) [p] := by
        apply firm_knowledge
        intro q one
        rw [List.mem_singleton.mp one]
        exact ⟨there, has.settled p.1 under⟩
      exact ⟨under, firm p List.mem_cons_self⟩
    · rw [knowledge, if_neg (has.settled k under), has.only k under out]
  have meets : (env sc.dialect sc.others).Meets (Held sc (Covers sc.dir parts staged rows))
      (Outcome sc parts staged rows) (store.finish site token opened rows) s :=
    meets_finish apart rfl rfl rfl rfl ready sound
  obtain ⟨⟨K, known, covers⟩, post⟩ := meets.reaches ran
  have source (k : Text) (v : Bytes) (like : PartLike site.dir k)
      (there : s'.objects k = some v ∨ (k, some v) ∈ s'.late) :
      (s.objects k = some v ∨ (k, some v) ∈ s.late) ∨
        ∃ gen, IsGeneration gen ∧ (k, v) ∈ generation site.dir gen staged :=
    or_assoc.mpr (there.elim (known.parts k v like) (known.coming k v like))
  refine ⟨?_, ?_, ?_, ?_⟩
  · cases is : result? p with
    | none =>
        obtain ⟨parts', current, firm, like'⟩ := covers.current before like
        exact ⟨parts', current, known.there firm like'⟩
    | some r =>
        obtain rfl := result?_eq_some is
        obtain ⟨K', known, left⟩ := post r rfl s' .refl
        obtain ⟨parts', current, firm, like'⟩ := left.current before like
        exact ⟨parts', current, known.there firm like'⟩
  · intro k v like there
    obtain old | ⟨gen, drawn, mem⟩ := source k v like there
    · exact (kept.sourced k v like old).imp_right fun from_ =>
        from_.mono (List.subset_cons_self _ _)
    · exact .inr ⟨_, List.mem_cons_self, gen, drawn, mem⟩
  · intro newer a older is landed k v own there
    cases newer with
    | nil =>
        obtain ⟨rfl, -⟩ := List.cons.inj is
        obtain rfl := result?_eq_some landed.2
        obtain ⟨K', known, left⟩ := post _ rfl s' .refl
        rw [Left, if_neg landed.1] at left
        obtain late | ⟨gen, drawn, mem⟩ := left.swept known own there
        · exact .inl late
        · exact .inr ⟨_, List.mem_cons_self, gen, drawn, mem⟩
    | cons b newer =>
        obtain ⟨rfl, rest⟩ := List.cons.inj is
        obtain (here | lost) | ⟨gen, drawn, mem⟩ := source k v (.of_isOwnPart own) (.inl there)
        · obtain ⟨w, lost⟩ | from_ := kept.swept newer a older rest landed k v own here
          · exact .inl ⟨w, known.later lost⟩
          · exact .inr (from_.mono (List.subset_cons_self _ _))
        · exact .inl ⟨some v, known.later lost⟩
        · exact .inr ⟨_, List.mem_cons_self, gen, drawn, mem⟩
  · intro k is
    have away : sc.Away k := by
      refine ⟨?_, fun free => free.2.2 is, calm.csv k is⟩
      rintro (like | under)
      · exact calm.parts k is like
      · exact calm.staging token k is under
    obtain ⟨same, settled⟩ := known.away k away
    exact ⟨same.trans (kept.quiet k is).1, settled⟩

theorem History.kept (calm : Quiet site quiet) (settled : ∀ k, quiet k → ¬ Late first k)
    (there : ∀ p ∈ prev, PartLike site.dir p.1 ∧ first.objects p.1 = some p.2 ∧ ¬ Late first p.1)
    (history : History site quiet first as s) : Kept site quiet first prev as s := by
  induction history with
  | start =>
      refine ⟨⟨prev, .first, there⟩, fun k v _ here => .inl here, ?_,
        fun k is => ⟨rfl, settled k is⟩⟩
      intro newer a older is
      cases newer <;> cases is
  | others _ same later foreign ih => exact ih.others same later foreign
  | land _ lost ih => exact ih.land lost
  | run _ has ran ih => exact ih.run short calm has ran

omit short

/-- Over any runs of a table, each ended, failed or cut off at any request, with failed writes
that land late or never and others writing besides: the parts of one run are there, whole, those of
the last that landed or of one after it; every part there is one that some run staged, byte for
byte; behind a run that landed an older part is left only where a write to it failed; and a key
nobody else writes stays as it was. -/
theorem parts_whole (site : Site) (quiet : Text → Prop) (first : Bucket)
    (prev : List (Text × Bytes)) (as : List Attempt) (s : Bucket)
    (short : size site.bare ≤ room .staging roomy) (calm : Quiet site quiet)
    (settled : ∀ k, quiet k → ¬ Late first k)
    (there : ∀ p ∈ prev, PartLike site.dir p.1 ∧ first.objects p.1 = some p.2 ∧ ¬ Late first p.1)
    (history : History site quiet first as s) :
    (∃ parts, Current site.dir prev as parts ∧ ∀ p ∈ parts, s.objects p.1 = some p.2) ∧
      (∀ k v, PartLike site.dir k → s.objects k = some v →
        (first.objects k = some v ∨ (k, some v) ∈ first.late) ∨ FromAttempts site.dir as k v) ∧
      (∀ newer a older, as = newer ++ a :: older → a.Landed → ∀ k v,
        isOwnPart site.dir k = true → s.objects k = some v →
          Late s k ∨ FromAttempts site.dir (newer ++ [a]) k v) ∧
      ∀ k, quiet k → s.objects k = first.objects k := by
  have kept := history.kept short calm settled there
  obtain ⟨parts, current, whole⟩ := kept.whole
  exact ⟨⟨parts, current, fun p mem => (whole p mem).2.1⟩,
    fun k v like here => kept.sourced k v like (.inl here), kept.swept,
    fun k is => (kept.quiet k is).1⟩

end History

/-! A run's copy in parts fails at its last request, which lands after the run; the next run
publishes. -/

/-- A digest of zeros. -/
def zeros : Naming.Digest where
  hex _ := List.replicate 32 '0'
  length _ := List.length_replicate
  ascii _ c mem := by
    rw [List.eq_of_mem_replicate mem]
    decide

def sampleSite : Site := ⟨[], ['t'], zeros⟩

/-- A part file of the table. -/
def partKey (gen : Text) : Text := partName sampleSite.dir gen 0

/-- The one file of a run's staging. -/
def stagedKey (token : Text) : Text := sampleSite.staging token ++ stagedName 0

def fiveMiB : PartLimit := ⟨5 * 2 ^ 20, le_rfl, by decide⟩

/-- One byte more than a copy takes. -/
def large : Bytes := List.replicate (5 * 2 ^ 20 + 1) 0

theorem length_large : large.length = 5 * 2 ^ 20 + 1 := List.length_replicate

def sampleBucket : Bucket where
  objects k :=
    if k = partKey ['0'] then some [1]
    else if k = stagedKey ['r'] then some large
    else if k = stagedKey ['q'] then some [2, 3]
    else none
  uploads _ := none
  late := []

/-- The keys a bucket has objects under. -/
def Holds (s : Bucket) (keys : List Text) : Prop := ∀ k, s.objects k ≠ none ↔ k ∈ keys

theorem sampleBucket_holds :
    Holds sampleBucket [partKey ['0'], stagedKey ['r'], stagedKey ['q']] := by
  intro k
  rw [List.mem_cons, List.mem_cons, List.mem_singleton]
  constructor
  · intro there
    by_contra neither
    obtain ⟨old, neither⟩ := not_or.mp neither
    obtain ⟨first, second⟩ := not_or.mp neither
    apply there
    exact (if_neg old).trans ((if_neg first).trans (if_neg second))
  · rintro (rfl | rfl | rfl) <;> exact nofun

theorem Holds.put {s : Bucket} {keys : List Text} (holds : Holds s keys) (key : Text) (v : Bytes) :
    Holds (s.set key (some v)) (key :: keys) := by
  intro k
  rw [List.mem_cons, ← holds k]
  by_cases same : k = key
  · simp [Bucket.set, same]
  · simp [Bucket.set, same]

theorem Holds.drop {s : Bucket} {keys : List Text} (holds : Holds s keys) (key : Text) :
    Holds (s.set key none) (keys.filter (· ≠ key)) := by
  intro k
  rw [List.mem_filter, ← holds k]
  by_cases same : k = key
  · simp [Bucket.set, same]
  · simp [Bucket.set, same]

/-- A listing in one page. -/
theorem Holds.serves {s : Bucket} {keys page : List Text} {dir : Text} (holds : Holds s keys)
    (sorted : page.Pairwise (· < ·)) (fits : ∀ k ∈ page, k ∈ keys ∧ dir <+: k)
    (all : ∀ k ∈ keys, dir <+: k → k ∈ page) :
    Serves .s3 s (.page dir none) (.page page none none) s := by
  refine @Serves.page .s3 s dir none none none page none sorted (fun k => ?_)
    (fun _ => .inr (.inl rfl)) (fun u mem => by cases mem)
  rw [holds k]
  constructor
  · intro mem
    exact ⟨(fits k mem).1, (fits k mem).2, fun t mem => (by cases mem), fun u mem => (by cases mem)⟩
  · rintro ⟨there, under, -⟩
    exact all k there under

/-- No key of a bucket is of a generation that none of them ends in. -/
theorem Holds.fresh {s : Bucket} {keys : List Text} (holds : Holds s keys) {gen : Text}
    (others : ∀ k ∈ keys ++ s.late.map (·.1),
      (rsplitOnce '-' k).map (fun p => p.1.reverse.take gen.length) ≠ some gen.reverse)
    (dir : Text) (i : Nat) :
    s.objects (partName dir gen i) = none ∧ ∀ v, (partName dir gen i, v) ∉ s.late := by
  have clean : '-' ∉ padded i ++ ".parquet".toList := by
    intro mem
    obtain digit | wrong := List.mem_append.mp mem
    · exact not_mem_of_digits isDigit_padded rfl digit
    · revert wrong
      decide
  have ends : (rsplitOnce '-' (partName dir gen i)).map (fun p => p.1.reverse.take gen.length) =
      some gen.reverse := by
    have split : rsplitOnce '-' (partName dir gen i) =
        some (dir ++ ("part-".toList ++ gen), padded i ++ ".parquet".toList) := by
      rw [← rsplitOnce_append clean]
      simp [partName]
    rw [split]
    simp
  refine ⟨?_, fun v mem => ?_⟩
  · by_contra there
    exact others _ (List.mem_append_left _ ((holds _).mp there)) ends
  · exact others _ (List.mem_append_right _ (List.mem_map_of_mem mem)) ends

variable {others : Text → Prop}

theorem Holds.lists {s : Bucket} {keys : List Text} {dir : Text} (holds : Holds s keys)
    (page : List Text) (sorted : page.Pairwise (· < ·)) (fits : ∀ k ∈ page, k ∈ keys ∧ dir <+: k)
    (all : ∀ k ∈ keys, dir <+: k → k ∈ page) :
    (env .s3 others).Reaches (s, s3List dir) (s, .pure (.ok page)) := by
  rw [s3List, s3ListFrom]
  exact .head (.serve (holds.serves sorted fits all)) .refl

/-- A part too large for one copy, in two. -/
theorem copyParts_large (s : Bucket) (u : Upload) (src : Text) (there : s.uploads 0 = some u)
    (source : s.objects src = some large) : ∃ s' u',
      (env .s3 others).Reaches (s, copyParts fiveMiB src u.key 0 large.length 0 1 [])
        (s', .pure (.ok [(1, 0), (2, 0)])) ∧
      s' = (s.upload 0 (some u')) ∧ u'.key = u.key ∧
      Bucket.assembled u' [(1, 0), (2, 0)] = some large := by
  let u₁ : Upload := u.put 1 ((large.drop 0).take (5 * 2 ^ 20), 0)
  let u₂ : Upload := u₁.put 2 ((large.drop (5 * 2 ^ 20)).take 1, 0)
  have first : Serves .s3 s (.uploadPartCopy src u.key 0 1 0 (5 * 2 ^ 20 - 1)) (.etag 0)
      (s.upload 0 (some u₁)) :=
    .uploadPartCopy there rfl source (by rw [length_large]; decide)
  have opened : (s.upload 0 (some u₁)).uploads 0 = some u₁ := by simp [Bucket.upload]
  have second : Serves .s3 (s.upload 0 (some u₁))
      (.uploadPartCopy src u.key 0 2 (5 * 2 ^ 20) (5 * 2 ^ 20)) (.etag 0)
      ((s.upload 0 (some u₁)).upload 0 (some u₂)) :=
    .uploadPartCopy opened rfl source (by rw [length_large]; decide)
  refine ⟨(s.upload 0 (some u₁)).upload 0 (some u₂), u₂, ?_, ?_, rfl, ?_⟩
  · rw [length_large, copyParts, if_pos (by decide)]
    refine .head (.serve first) ?_
    dsimp only
    rw [copyParts, if_pos (by decide)]
    refine .head (.serve second) ?_
    dsimp only
    rw [copyParts, if_neg (by decide)]
    exact .refl
  · simp [Bucket.upload]
  · have rest : (large.drop (5 * 2 ^ 20)).take 1 = large.drop (5 * 2 ^ 20) :=
      List.take_of_length_le (by rw [List.length_drop, length_large]; decide)
    have parts : large.take (5 * 2 ^ 20) ++ (large.drop (5 * 2 ^ 20)).take 1 = large := by
      rw [rest, List.take_append_drop]
    simpa [Bucket.assembled, u₂, u₁, Upload.put] using parts

/-- The copy's last request fails. -/
def sampleTorn : Bucket := sampleBucket.lose (partKey ['0', '0']) (some large)

theorem copy_torn : (env .s3 others).Reaches
    (sampleBucket, s3Copy fiveMiB (stagedKey ['r']) (partKey ['0', '0']))
    (sampleTorn, .pure (.error (.transfer "timeout"))) := by
  let opened : Upload := ⟨partKey ['0', '0'], fun _ => none⟩
  obtain ⟨s, u, parts, rfl, same, whole⟩ :=
    @copyParts_large others (sampleBucket.upload 0 (some opened)) opened (stagedKey ['r'])
      (by simp [Bucket.upload]) rfl
  refine .head (.serve (.headSize rfl)) ?_
  dsimp only
  rw [if_neg (by rw [length_large]; decide)]
  refine .head (.serve (@Serves.createMultipart _ _ _ 0 rfl)) ?_
  refine (Env.reaches_bind (Env.reaches_bind parts _) _).trans ?_
  refine .head (.serve (.completeMultipartLost (e := .transfer "timeout") (u := u)
    (by simp [Bucket.upload]) same whole)) ?_
  refine .head (.serve .abortMultipart) ?_
  have same : sampleBucket.uploads = Function.update sampleBucket.uploads 0 none :=
    (Function.update_eq_self 0 sampleBucket.uploads).symm
  simp only [Prog.bind, Bucket.upload, Bucket.lose, Function.update_idem, sampleTorn]
  rw [← same]

theorem sample_fails : (env .s3 (Free sampleSite ['r'] fun _ => False)).Reaches
    (sampleBucket, (Store.s3 fiveMiB).finish sampleSite ['r'] 1 2)
    (sampleTorn.set (stagedKey ['r']) none, .pure (.error (.transfer "timeout"))) := by
  have drawn : IsGeneration ['0', '0'] :=
    ⟨0, 0, by decide, by decide, by simp [partGeneration, base36, Naming.digit36]⟩
  have torn : Holds sampleTorn [partKey ['0'], stagedKey ['r'], stagedKey ['q']] :=
    sampleBucket_holds
  refine (Env.reaches_bind (Env.reaches_bind (sampleBucket_holds.lists [stagedKey ['r']]
    (List.pairwise_singleton _ _) (by decide) (by decide)) _) _).trans ?_
  simp only [Prog.bind, List.mergeSort_singleton, if_neg (show ¬ 2 = 0 by decide)]
  refine (Env.reaches_bind (Env.reaches_bind (sampleBucket_holds.lists [partKey ['0']]
    (List.pairwise_singleton _ _) (by decide) (by decide)) _) _).trans ?_
  refine .head (.serve (.partGeneration drawn (sampleBucket_holds.fresh (by decide)))) ?_
  refine (Env.reaches_bind (Env.reaches_bind (Env.reaches_bind copy_torn _) _) _).trans ?_
  refine (Env.reaches_bind (Env.reaches_bind (torn.lists [stagedKey ['r']]
    (List.pairwise_singleton _ _) (by decide) (by decide)) _) _).trans ?_
  exact .head (.serve .delete) .refl

def sampleEnd : Bucket :=
  ((((sampleTorn.set (stagedKey ['r']) none).set (partKey ['0', '0']) (some large)).set
    (partKey ['0', '1']) (some [2, 3])).set (partKey ['0']) none).set (partKey ['0', '0']) none
      |>.set (stagedKey ['q']) none

theorem sample_lands : (env .s3 (Free sampleSite ['q'] fun _ => False)).Reaches
    ((sampleTorn.set (stagedKey ['r']) none).set (partKey ['0', '0']) (some large),
      (Store.s3 fiveMiB).finish sampleSite ['q'] 1 2) (sampleEnd, .pure (.ok ())) := by
  have drawn : IsGeneration ['0', '1'] :=
    ⟨0, 1, by decide, by decide, by simp [partGeneration, base36, Naming.digit36]⟩
  have torn : Holds sampleTorn [partKey ['0'], stagedKey ['r'], stagedKey ['q']] :=
    sampleBucket_holds
  have late := (torn.drop (stagedKey ['r'])).put (partKey ['0', '0']) large
  refine (Env.reaches_bind (Env.reaches_bind (late.lists [stagedKey ['q']]
    (List.pairwise_singleton _ _) (by decide) (by decide)) _) _).trans ?_
  simp only [Prog.bind, List.mergeSort_singleton, if_neg (show ¬ 2 = 0 by decide)]
  refine (Env.reaches_bind (Env.reaches_bind (late.lists [partKey ['0'], partKey ['0', '0']]
    (by decide) (by decide) (by decide)) _) _).trans ?_
  refine .head (.serve (.partGeneration drawn (late.fresh (by decide)))) ?_
  refine .head (.serve (.headSize rfl)) ?_
  refine .head (.serve (.copyOne rfl)) ?_
  refine .head (.serve .delete) ?_
  refine .head (.serve .delete) ?_
  exact .head (.serve .delete) .refl

theorem Holds.staged {s : Bucket} {keys : List Text} {token : Text} {v : Bytes}
    (holds : Holds s keys) (there : s.objects (stagedKey token) = some v)
    (only : ∀ k ∈ keys, sampleSite.staging token <+: k → k = stagedKey token)
    (settled : ∀ k ∈ s.late.map (·.1), ¬ sampleSite.staging token <+: k) :
    Staged sampleSite token [(stagedKey token, v)] s := by
  refine ⟨List.pairwise_singleton _ _, ?_, ?_, ?_⟩
  · intro p mem
    obtain rfl := List.mem_singleton.mp mem
    exact ⟨List.prefix_append _ _, there⟩
  · intro k under out
    by_contra here
    exact out (List.mem_singleton.mpr (only k ((holds k).mp here) under))
  · intro k under late
    obtain ⟨v, mem⟩ := late
    exact settled k (List.mem_map_of_mem mem) under

/-- The run that published, and the one before it. -/
def sampleAttempts : List Attempt :=
  [⟨[(stagedKey ['q'], [2, 3])], 2, some (.ok ())⟩,
    ⟨[(stagedKey ['r'], large)], 2, some (.error (.transfer "timeout"))⟩]

theorem sample_history :
    History sampleSite (fun _ => False) sampleBucket sampleAttempts sampleEnd := by
  have torn : Holds sampleTorn [partKey ['0'], stagedKey ['r'], stagedKey ['q']] :=
    sampleBucket_holds
  have late := (torn.drop (stagedKey ['r'])).put (partKey ['0', '0']) large
  have first : Staged sampleSite ['r'] [(stagedKey ['r'], large)] sampleBucket :=
    sampleBucket_holds.staged rfl (by decide) (by decide)
  have second : Staged sampleSite ['q'] [(stagedKey ['q'], [2, 3])]
      ((sampleTorn.set (stagedKey ['r']) none).set (partKey ['0', '0']) (some large)) :=
    late.staged rfl (by decide) (by decide)
  have failed := @History.run sampleSite (fun _ => False) sampleBucket _ _ _ (.s3 fiveMiB) _ _ _ _ _
    .start first sample_fails
  exact @History.run sampleSite (fun _ => False) sampleBucket _ _ _ (.s3 fiveMiB) _ _ _ _ _
    (.land failed List.mem_cons_self) second sample_lands

theorem parts_whole_sample :
    (∃ parts, Current sampleSite.dir [(partKey ['0'], [1])] sampleAttempts parts ∧
        ∀ p ∈ parts, sampleEnd.objects p.1 = some p.2) ∧
      (∀ k v, PartLike sampleSite.dir k → sampleEnd.objects k = some v →
        (sampleBucket.objects k = some v ∨ (k, some v) ∈ sampleBucket.late) ∨
          FromAttempts sampleSite.dir sampleAttempts k v) ∧
      (∀ newer a older, sampleAttempts = newer ++ a :: older → a.Landed → ∀ k v,
        isOwnPart sampleSite.dir k = true → sampleEnd.objects k = some v →
          Late sampleEnd k ∨ FromAttempts sampleSite.dir (newer ++ [a]) k v) ∧
      ∀ k, (fun _ : Text => False) k → sampleEnd.objects k = sampleBucket.objects k := by
  apply parts_whole
  · exact Nat.le_trans (by decide) (room_large (by decide))
  · exact ⟨fun k is => is.elim, fun k is => is.elim, fun token k is => is.elim⟩
  · exact fun k is => is.elim
  · intro p mem
    obtain rfl := List.mem_singleton.mp mem
    exact ⟨⟨['0', '-', '0', '0', '0', '0', '0'], by decide, by decide⟩, by decide,
      fun late => by cases late.choose_spec⟩
  · exact sample_history

end Apitap.Publish
