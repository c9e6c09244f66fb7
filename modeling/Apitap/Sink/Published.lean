import Apitap.Sink.StoreCalls

/-!
# What a publish leaves

Until every part of the new generation is in, the parts that were there before stay whole, and
from then on the new ones. Over any runs of a table, each cut off at any request or answered by
failures that may still land, the parts of one run are always there, those of the last that
succeeded or of one after it; and behind a successful run no older part is left.
-/

namespace Apitap.Publish

open Naming (Text)
open Bucket (Drift Serves env)

/-! ## Generations -/

/-- Staged parts under the names of a generation, from an index on. -/
def generationFrom (dir gen : Text) : Nat → List (Text × Bytes) → List (Text × Bytes)
  | _, [] => []
  | i, p :: staged => (partName dir gen i, p.2) :: generationFrom dir gen (i + 1) staged

def generation (dir gen : Text) (staged : List (Text × Bytes)) : List (Text × Bytes) :=
  generationFrom dir gen 0 staged

/-- Parts that are there, with no write to come. -/
def Firm (K : Knowledge) (parts : List (Text × Bytes)) : Prop :=
  ∀ p ∈ parts, K p.1 = some (some p.2)

variable {sc : Scene} {K K' : Knowledge} {s s' : Bucket} {dir gen : Text} {i j : Nat}
  {staged prev : List (Text × Bytes)}

theorem mem_generationFrom {k : Text} (mem : k ∈ (generationFrom dir gen i staged).map (·.1)) :
    ∃ j, i ≤ j ∧ k = partName dir gen j := by
  induction staged generalizing i with
  | nil => cases mem
  | cons p staged ih =>
      obtain same | mem := List.mem_cons.mp mem
      · exact ⟨i, Nat.le_refl i, same⟩
      · obtain ⟨j, above, is⟩ := ih mem
        exact ⟨j, Nat.le_of_succ_le above, is⟩

/-- What a publish puts there the next sweep knows for its own. -/
theorem isOwnPart_generation (drawn : IsGeneration gen) (few : staged.length ≤ 100000) :
    ∀ p ∈ generation dir gen staged, isOwnPart dir p.1 = true := by
  have from_ (i : Nat) (few : i + staged.length ≤ 100000) :
      ∀ p ∈ generationFrom dir gen i staged, isOwnPart dir p.1 = true := by
    clear * - drawn few
    induction staged generalizing i with
    | nil =>
        intro p mem
        cases mem
    | cons p staged ih =>
        rw [List.length_cons] at few
        intro q mem
        obtain rfl | mem := List.mem_cons.mp mem
        · exact isOwnPart_partName drawn (by omega)
        · exact ih (i + 1) (by omega) q mem
  exact from_ 0 (by omega)

theorem Firm.beside {keys : Text → Prop} (firm : Firm K prev) (beside : K.Beside K' keys)
    (out : ∀ p ∈ prev, ¬ keys p.1) : Firm K' prev :=
  fun p mem => (beside p.1 (out p mem)).trans (firm p mem)

section Publish

variable {J : Knowledge → Prop} {store : Store} (apart : sc.Apart) (drawn : IsGeneration gen)

include apart drawn

theorem meets_copyAll {fresh : List Text} (sound : Sound sc K s)
    (sources : ∀ p ∈ staged, sc.staging <+: p.1 ∧ K p.1 = some (some p.2))
    (absent : ∀ j, i ≤ j → K (partName sc.dir gen j) = some none)
    (allowed : ∀ p ∈ generationFrom sc.dir gen i staged, sc.parts p.1 p.2)
    (added : ∀ k ∈ fresh, ∃ j < i, k = partName sc.dir gen j)
    (fine : ∀ K', K.Beside K' (fun k =>
      k ∈ fresh ∨ k ∈ (generationFrom sc.dir gen i staged).map (·.1)) → J K') :
    (env sc.dialect sc.others).Meets (Held sc J)
      (fun r s => ∃ K', Sound sc K' s ∧
        K.Beside K' (fun k => k ∈ fresh ∨ k ∈ (generationFrom sc.dir gen i staged).map (·.1)) ∧
        ∀ names, r = .ok names →
          names = fresh ++ (generationFrom sc.dir gen i staged).map (·.1) ∧
            (∀ k ∈ fresh, K' k = K k) ∧ Firm K' (generationFrom sc.dir gen i staged))
      (copyAll store.copy sc.dir gen i fresh (staged.map (·.1))) s := by
  induction staged generalizing i fresh K s with
  | nil =>
      have same : J K := fine K fun _ _ => rfl
      refine sound.give apart same fun s sound => ⟨K, sound, fun _ _ => rfl, fun names is => ?_⟩
      obtain rfl := Except.ok.inj is
      exact ⟨(List.append_nil _).symm, fun _ _ => rfl, fun p mem => by cases mem⟩
  | cons p staged ih =>
      have like : PartLike sc.dir (partName sc.dir gen i) := partName_like drawn
      obtain ⟨under, source⟩ := sources p List.mem_cons_self
      have single : ∀ k, k = partName sc.dir gen i →
          k ∈ fresh ∨ k ∈ (generationFrom sc.dir gen i (p :: staged)).map (·.1) :=
        fun k same => .inr (same ▸ List.mem_cons_self)
      refine (meets_copy apart (.inr under) source (absent i (Nat.le_refl i)) like
        (allowed _ List.mem_cons_self) (fun K' beside => fine K' (beside.mono single)) store
          sound).bind fun r s post => ?_
      obtain ⟨K₁, sound, beside, copied⟩ := post
      have first := beside.mono single
      match r with
      | .error e =>
          have ours : ∀ k ∈ fresh, sc.Ours k := by
            intro k mem
            obtain ⟨j, -, rfl⟩ := added k mem
            exact .inl (partName_like drawn)
          have back : ∀ K', K₁.Beside K' (· ∈ fresh) → K.Beside K' (fun k =>
              k ∈ fresh ∨ k ∈ (generationFrom sc.dir gen i (p :: staged)).map (·.1)) :=
            fun K' rest => first.trans (rest.mono fun k mem => .inl mem)
          refine (meets_tryDelete apart sound ours fun K' rest => fine K' (back K' rest)).bind
            fun _ s post => ?_
          obtain ⟨K', sound, rest⟩ := post
          exact sound.give apart (fine K' (back K' rest)) fun s sound =>
            ⟨K', sound, back K' rest, fun names wrong => by cases wrong⟩
      | .ok () =>
          have staged_ne {q : Text × Bytes} (mem : q ∈ staged) : q.1 ≠ partName sc.dir gen i := by
            intro same
            exact apart.staged q.1 (sources q (List.mem_cons_of_mem _ mem)).1 (same ▸ like)
          have sources' : ∀ q ∈ staged, sc.staging <+: q.1 ∧ K₁ q.1 = some (some q.2) := by
            intro q mem
            rw [beside q.1 (staged_ne mem)]
            exact sources q (List.mem_cons_of_mem _ mem)
          have absent' : ∀ j, i + 1 ≤ j → K₁ (partName sc.dir gen j) = some none := by
            intro j above
            rw [beside _ fun same => Nat.ne_of_gt above (partName_inj same)]
            exact absent j (Nat.le_of_succ_le above)
          have added' : ∀ k ∈ fresh ++ [partName sc.dir gen i], ∃ j < i + 1,
              k = partName sc.dir gen j := by
            intro k mem
            obtain old | new := List.mem_append.mp mem
            · obtain ⟨j, below, is⟩ := added k old
              exact ⟨j, Nat.lt_succ_of_lt below, is⟩
            · exact ⟨i, Nat.lt_succ_self i, List.mem_singleton.mp new⟩
          have wider : ∀ k, k ∈ fresh ++ [partName sc.dir gen i] ∨
                k ∈ (generationFrom sc.dir gen (i + 1) staged).map (·.1) →
              k ∈ fresh ∨ k ∈ (generationFrom sc.dir gen i (p :: staged)).map (·.1) := by
            rintro k (mem | mem)
            · obtain old | new := List.mem_append.mp mem
              · exact .inl old
              · exact .inr (List.mem_singleton.mp new ▸ List.mem_cons_self)
            · exact .inr (List.mem_cons_of_mem _ mem)
          refine (ih sound sources' absent' (fun q mem => allowed q (List.mem_cons_of_mem _ mem))
            added' fun K' rest => fine K' (first.trans (rest.mono wider))).mono fun r s post => ?_
          obtain ⟨K', sound, rest, names⟩ := post
          refine ⟨K', sound, first.trans (rest.mono wider), fun ns is => ?_⟩
          obtain ⟨rfl, kept, firm⟩ := names ns is
          refine ⟨List.append_assoc _ _ _, fun k mem => ?_, fun q mem => ?_⟩
          · obtain ⟨j, below, rfl⟩ := added k mem
            rw [kept _ (List.mem_append_left _ mem)]
            exact beside _ fun same => Nat.ne_of_lt below (partName_inj same)
          · obtain rfl | mem := List.mem_cons.mp mem
            · exact (kept _ (List.mem_append_right _ List.mem_cons_self)).trans (copied rfl)
            · exact firm q mem

omit drawn

theorem meets_after {site : Site} (csv : sc.csv = site.csv) (sound : Sound sc K s) (same : J K) :
    (env sc.dialect sc.others).Meets (Held sc J) (fun _ s => Sound sc K s)
      (store.after site) s := by
  cases store with
  | s3 limit => exact sound.give apart same fun _ sound => sound
  | gcsParquet turns =>
      refine Env.Meets.bind (Q := fun _ s => Sound sc K s) ?_ fun _ s sound =>
        sound.give apart same fun _ sound => sound
      rw [← csv]
      refine sound.ask apart same fun s ans s' sound served => ?_
      cases served with
      | delete => exact (sound.besides apart none).give apart same fun _ sound => sound
      | refused => exact sound.give apart same fun _ sound => sound
      | deleteLost => exact (sound.besidesLost apart).give apart same fun _ sound => sound

end Publish

/-! ## One run -/

/-- The parts that were there, or those of a new generation. -/
def Covers (dir : Text) (prev staged : List (Text × Bytes)) (rows : Nat) (K : Knowledge) : Prop :=
  Firm K prev ∨ (rows ≠ 0 ∧ ∃ gen, IsGeneration gen ∧ Firm K (generation dir gen staged))

/-- What a publish starts from. -/
structure Ready (sc : Scene) (prev staged : List (Text × Bytes)) (K : Knowledge) : Prop where
  firm : Firm K prev
  old : ∀ p ∈ prev, PartLike sc.dir p.1
  sorted : (staged.map (·.1)).Pairwise (· < ·)
  sources : ∀ p ∈ staged, sc.staging <+: p.1 ∧ K p.1 = some (some p.2)
  only : ∀ k, sc.staging <+: k → k ∉ staged.map (·.1) → K k = some none
  allowed : ∀ gen, IsGeneration gen → ∀ p ∈ generation sc.dir gen staged, sc.parts p.1 p.2

/-- The new parts are in, and no old one is left without a write to come. -/
def Replaced (sc : Scene) (staged : List (Text × Bytes)) (K : Knowledge) : Prop :=
  ∃ gen, IsGeneration gen ∧ Firm K (generation sc.dir gen staged) ∧
    ∀ k, isOwnPart sc.dir k = true → k ∉ (generation sc.dir gen staged).map (·.1) →
      ∀ v, K k ≠ some (some v)

/-- How a run's end leaves the table. -/
def Left (sc : Scene) (prev staged : List (Text × Bytes)) (rows : Nat) (r : Except Error Unit)
    (K : Knowledge) : Prop :=
  match r with
  | .ok () => if rows = 0 then Firm K prev else Replaced sc staged K
  | .error e => Firm K prev ∨ (rows ≠ 0 ∧ (∃ left, left ≠ [] ∧ e = stalePartsLeft sc.dir left) ∧
      ∃ gen, IsGeneration gen ∧ Firm K (generation sc.dir gen staged))

def Outcome (sc : Scene) (prev staged : List (Text × Bytes)) (rows : Nat)
    (r : Except Error Unit) (s : Bucket) : Prop :=
  ∃ K, Sound sc K s ∧ Left sc prev staged rows r K

section Run

variable {store : Store} {rows : Nat} (apart : sc.Apart) (same : sc.dialect = store.dialect)

/-- A drawn generation has no part yet. -/
theorem Sound.fresh (sound : Sound sc K s) (drawn : IsGeneration gen)
    (fresh : ∀ dir i, s.objects (partName dir gen i) = none ∧
      ∀ v, (partName dir gen i, v) ∉ s.late) (j : Nat) :
    K (partName sc.dir gen j) = some none := by
  have like : PartLike sc.dir (partName sc.dir gen j) := partName_like drawn
  obtain ⟨nothing, quiet⟩ := fresh sc.dir j
  cases is : K (partName sc.dir gen j) with
  | none =>
      obtain ⟨v, lost⟩ := sound.unknown _ (.inl like) is
      exact absurd lost (quiet v)
  | some v => rw [← (sound.known _ (.inl like) v is).1, nothing]

/-- Parts of a generation that is new. -/
theorem Firm.new {i : Nat} (firm : Firm K prev)
    (absent : ∀ j, K (partName dir gen j) = some none) :
    ∀ p ∈ prev, ¬ p.1 ∈ (generationFrom dir gen i staged).map (·.1) := by
  intro p mem inside
  obtain ⟨j, -, is⟩ := mem_generationFrom inside
  have there := firm p mem
  rw [is, absent j] at there
  cases there

theorem PartLike.under {k : Text} (like : PartLike dir k) : dir <+: k := by
  obtain ⟨mid, rfl, -⟩ := like
  exact List.prefix_append _ _

theorem generation_like {p : Text × Bytes} (drawn : IsGeneration gen)
    (mem : p ∈ generation dir gen staged) : PartLike dir p.1 := by
  obtain ⟨j, -, is⟩ := mem_generationFrom (List.mem_map_of_mem mem)
  exact is ▸ partName_like drawn

/-- The listing of the staging is the run's parts, in their order. -/
theorem listed_staged {found : List Text} (ready : Ready sc prev staged K)
    (listed : Listed sc K sc.staging found) :
    found.mergeSort (fun a b => decide (a ≤ b)) = staged.map (·.1) := by
  have members (k : Text) : k ∈ found ↔ k ∈ staged.map (·.1) := by
    constructor
    · intro mem
      by_contra out
      have under := listed.under k mem
      exact listed.only k mem (.inr under) (ready.only k under out)
    · intro mem
      obtain ⟨p, p_mem, rfl⟩ := List.mem_map.mp mem
      obtain ⟨under, there⟩ := ready.sources p p_mem
      exact listed.all p.1 (.inr under) under p.2 there
  have found_nodup : found.Nodup := listed.sorted.imp fun below => ne_of_lt below
  have staged_nodup : (staged.map (·.1)).Nodup := ready.sorted.imp fun below => ne_of_lt below
  have perm := (List.perm_ext_iff_of_nodup found_nodup staged_nodup).mpr members
  have same : found = staged.map (·.1) :=
    perm.eq_of_pairwise (fun a b _ _ below above => absurd below (lt_asymm above)) listed.sorted
      ready.sorted
  rw [List.mergeSort_of_pairwise, same]
  exact listed.sorted.imp fun below => decide_eq_true below.le

/-- What is known of the parts outlives the staging. -/
theorem Firm.discard {keys : Text → Prop} (apart : sc.Apart) (firm : Firm K prev)
    (like : ∀ p ∈ prev, PartLike sc.dir p.1) (gone : K.Beside K' keys)
    (under : ∀ k, keys k → sc.staging <+: k) : Firm K' prev :=
  firm.beside gone fun p mem inside => apart.staged p.1 (under p.1 inside) (like p mem)

include apart

/-- From the last copy on: the old parts go, and the staging behind them. -/
theorem meets_replace {site : Site} {K₁ : Knowledge} {stale : List Text} (csv : sc.csv = site.csv)
    (some_ : rows ≠ 0) (ready : Ready sc prev staged K) (listed : Listed sc K sc.dir stale)
    (drawn : IsGeneration gen) (firm : Firm K₁ (generation sc.dir gen staged))
    (beside : K.Beside K₁ (· ∈ (generation sc.dir gen staged).map (·.1))) (sound : Sound sc K₁ s) :
    (env sc.dialect sc.others).Meets (Held sc (Covers sc.dir prev staged rows))
      (Outcome sc prev staged rows)
      ((sweep sc.dir ((generation sc.dir gen staged).map (·.1)) stale).bind fun left =>
        (tryDelete (staged.map (·.1))).bind fun _ =>
          if left = [] then (store.after site).bind fun _ => .pure (.ok ())
          else .pure (.error (stalePartsLeft sc.dir left))) s := by
  have kept : ∀ p ∈ generation sc.dir gen staged,
      ¬ Swept sc ((generation sc.dir gen staged).map (·.1)) stale p.1 :=
    fun p mem swept => swept.2.1 (List.mem_map_of_mem mem)
  have apart_ {k : Text} (like : PartLike sc.dir k) : k ∉ staged.map (·.1) := by
    intro mem
    obtain ⟨p, p_mem, rfl⟩ := List.mem_map.mp mem
    exact apart.staged p.1 (ready.sources p p_mem).1 like
  refine (meets_sweep apart sound fun K' swept =>
      .inr ⟨some_, gen, drawn, firm.beside swept kept⟩).bind
    fun left s post => ?_
  obtain ⟨K₂, sound, rest, swept⟩ := post
  have firm₂ := firm.beside rest kept
  have firm₃ (K' : Knowledge) (gone : K₂.Beside K' (· ∈ staged.map (·.1))) :
      Firm K' (generation sc.dir gen staged) :=
    firm₂.beside gone fun p mem => apart_ (generation_like drawn mem)
  have ours : ∀ k ∈ staged.map (·.1), sc.Ours k := by
    intro k mem
    obtain ⟨p, p_mem, rfl⟩ := List.mem_map.mp mem
    exact .inr (ready.sources p p_mem).1
  refine (meets_tryDelete apart sound ours
    fun K' gone => .inr ⟨some_, gen, drawn, firm₃ K' gone⟩).bind fun _ s post => ?_
  obtain ⟨K₃, sound, gone⟩ := post
  have covers : Covers sc.dir prev staged rows K₃ := .inr ⟨some_, gen, drawn, firm₃ K₃ gone⟩
  split_ifs with none_
  · refine (meets_after apart csv sound covers).bind fun _ s sound => ?_
    refine sound.give apart covers fun s sound => ⟨K₃, sound, ?_⟩
    rw [Left, if_neg some_]
    refine ⟨gen, drawn, firm₃ K₃ gone, fun k own new v there => ?_⟩
    have like := PartLike.of_isOwnPart own
    rw [gone k (apart_ like)] at there
    by_cases old : k ∈ stale
    · exact swept k ⟨old, new, own⟩ (none_ ▸ List.not_mem_nil) v there
    · rw [rest k fun swept => old swept.1, beside k new] at there
      exact old (listed.all k (.inl like) like.under v there)
  · exact sound.give apart covers fun s sound =>
      ⟨K₃, sound, .inr ⟨some_, ⟨left, none_, rfl⟩, gen, drawn, firm₃ K₃ gone⟩⟩

include same

theorem meets_publishParts {site : Site} (csv : sc.csv = site.csv) (some_ : rows ≠ 0)
    (ready : Ready sc prev staged K) (sound : Sound sc K s) :
    (env sc.dialect sc.others).Meets (Held sc (Covers sc.dir prev staged rows))
      (Outcome sc prev staged rows)
      (publishParts store.list store.copy sc.dir (staged.map (·.1)) (store.after site)) s := by
  have covers : Covers sc.dir prev staged rows K := .inl ready.firm
  have failed {K : Knowledge} {s : Bucket} {e : Error} (sound : Sound sc K s) (firm : Firm K prev) :
      (env sc.dialect sc.others).Meets (Held sc (Covers sc.dir prev staged rows))
        (Outcome sc prev staged rows) (.pure (.error e)) s :=
    sound.give apart (.inl firm) fun s sound => ⟨K, sound, .inl firm⟩
  refine (meets_list apart same covers sound sc.dir).bind fun r s post => ?_
  obtain ⟨sound, listed⟩ := post
  match r with
  | .error e => exact failed sound ready.firm
  | .ok stale =>
      have listed := listed stale rfl
      refine sound.ask apart covers fun s ans s' sound served => ?_
      cases served with
      | refused _ sends => exact absurd rfl sends
      | @partGeneration gen drawn fresh =>
          have absent := sound.fresh drawn fresh
          have out : ∀ p ∈ prev, ¬ p.1 ∈ (generation sc.dir gen staged).map (·.1) :=
            ready.firm.new absent
          have grown : ∀ K', K.Beside K' (fun k =>
              k ∈ [] ∨ k ∈ (generation sc.dir gen staged).map (·.1)) → Firm K' prev := by
            intro K' beside
            refine ready.firm.beside beside fun p mem => ?_
            rintro (wrong | inside)
            · cases wrong
            · exact out p mem inside
          refine (meets_copyAll apart drawn sound ready.sources (fun j _ => absent j)
            (ready.allowed gen drawn) (fun k mem => by cases mem)
            fun K' beside => .inl (grown K' beside)).bind fun r s post => ?_
          obtain ⟨K₁, sound, beside, copied⟩ := post
          match r with
          | .error e => exact failed sound (grown K₁ beside)
          | .ok names =>
              obtain ⟨is, -, firm⟩ := copied names rfl
              rw [List.nil_append] at is
              subst is
              have new : K.Beside K₁ (· ∈ (generation sc.dir gen staged).map (·.1)) :=
                beside.mono fun k inside => inside.resolve_left List.not_mem_nil
              exact meets_replace apart csv some_ ready listed drawn firm new sound

theorem meets_finalizeInner {site : Site} (csv : sc.csv = site.csv)
    (ready : Ready sc prev staged K) (sound : Sound sc K s) :
    (env sc.dialect sc.others).Meets (Held sc (Covers sc.dir prev staged rows))
      (Outcome sc prev staged rows)
      (finalizeInner store.list store.copy sc.dir sc.staging rows (store.after site)) s := by
  have covers : Covers sc.dir prev staged rows K := .inl ready.firm
  refine (meets_list apart same covers sound sc.staging).bind fun r s post => ?_
  obtain ⟨sound, listed⟩ := post
  match r with
  | .error e => exact sound.give apart covers fun s sound => ⟨K, sound, .inl ready.firm⟩
  | .ok found =>
      simp only [listed_staged ready (listed found rfl)]
      split_ifs with empty
      · have ours : ∀ k ∈ staged.map (·.1), sc.Ours k := by
          intro k mem
          obtain ⟨p, p_mem, rfl⟩ := List.mem_map.mp mem
          exact .inr (ready.sources p p_mem).1
        have kept (K' : Knowledge) (gone : K.Beside K' (· ∈ staged.map (·.1))) : Firm K' prev := by
          refine ready.firm.beside gone fun p mem inside => ?_
          obtain ⟨q, q_mem, is⟩ := List.mem_map.mp inside
          exact apart.staged q.1 (ready.sources q q_mem).1 (is ▸ ready.old p mem)
        refine (meets_deleteAll apart sound ours fun K' gone => .inl (kept K' gone)).mono
          fun r s post => ?_
        obtain ⟨K', sound, gone⟩ := post
        refine ⟨K', sound, ?_⟩
        match r with
        | .ok () =>
            rw [Left, if_pos empty]
            exact kept K' gone
        | .error e => exact .inl (kept K' gone)
      · exact meets_publishParts apart same csv empty ready sound

theorem meets_discard {J : Knowledge → Prop} {opened : Nat} (sound : Sound sc K s)
    (fine : ∀ K', K.Beside K' (sc.staging <+: ·) → J K') :
    (env sc.dialect sc.others).Meets (Held sc J)
      (fun _ s => ∃ K', Sound sc K' s ∧ K.Beside K' (sc.staging <+: ·))
      (discard store.list sc.staging opened) s := by
  refine (meets_list apart same (fine K fun _ _ => rfl) sound sc.staging).bind fun r s post => ?_
  obtain ⟨sound, listed⟩ := post
  match r with
  | .ok found =>
      have under : ∀ k, k ∈ found → sc.staging <+: k := (listed found rfl).under
      refine (meets_tryDelete apart sound (fun k mem => .inr (under k mem))
        fun K' gone => fine K' (gone.mono under)).mono fun _ s post => ?_
      obtain ⟨K', sound, gone⟩ := post
      exact ⟨K', sound, gone.mono under⟩
  | .error e =>
      have under : ∀ k, k ∈ (List.range opened).map (fun n => sc.staging ++ stagedName n) →
          sc.staging <+: k := by
        intro k mem
        obtain ⟨n, -, rfl⟩ := List.mem_map.mp mem
        exact List.prefix_append _ _
      refine (meets_tryDelete apart sound (fun k mem => .inr (under k mem))
        fun K' gone => fine K' (gone.mono under)).mono fun _ s post => ?_
      obtain ⟨K', sound, gone⟩ := post
      exact ⟨K', sound, gone.mono under⟩

theorem meets_finish {site : Site} {token : Text} {opened : Nat} (csv : sc.csv = site.csv)
    (dir : sc.dir = site.dir) (staging : sc.staging = site.staging token)
    (ready : Ready sc prev staged K) (sound : Sound sc K s) :
    (env sc.dialect sc.others).Meets (Held sc (Covers sc.dir prev staged rows))
      (Outcome sc prev staged rows) (store.finish site token opened rows) s := by
  rw [Store.finish, ← dir, ← staging]
  refine (meets_finalizeInner apart same csv ready sound).bind fun r s post => ?_
  obtain ⟨K', sound, left⟩ := post
  match r with
  | .ok () =>
      have covers : Covers sc.dir prev staged rows K' := by
        rw [Left] at left
        split_ifs at left with some_
        · exact .inl left
        · obtain ⟨gen, drawn, firm, -⟩ := left
          exact .inr ⟨some_, gen, drawn, firm⟩
      exact sound.give apart covers fun s sound => ⟨K', sound, left⟩
  | .error e =>
      have kept (K'' : Knowledge) (gone : K'.Beside K'' (sc.staging <+: ·)) :
          Left sc prev staged rows (.error e) K'' := by
        obtain firm | ⟨some_, which, gen, drawn, firm⟩ := left
        · exact .inl (firm.discard apart ready.old gone fun _ under => under)
        · exact .inr ⟨some_, which, gen, drawn,
            firm.discard apart (fun p mem => generation_like drawn mem) gone fun _ under => under⟩
      have covers (K'' : Knowledge) (gone : K'.Beside K'' (sc.staging <+: ·)) :
          Covers sc.dir prev staged rows K'' := by
        obtain firm | ⟨some_, -, gen, drawn, firm⟩ := kept K'' gone
        · exact .inl firm
        · exact .inr ⟨some_, gen, drawn, firm⟩
      refine (meets_discard apart same sound covers).bind fun _ s post => ?_
      obtain ⟨K'', sound, gone⟩ := post
      exact sound.give apart (covers K'' gone) fun s sound => ⟨K'', sound, kept K'' gone⟩

end Run

end Apitap.Publish
