import Apitap.Sink.Publish
import Mathlib.Data.List.Sort

/-!
# What a run knows of its keys

Between the requests of a run others write, and requests that failed may still be carried out.
What is at a key of the run it knows all the same, unless a write to that key failed. Each call
has one rule that says what it makes of this knowledge: deletes, a sweep, a paged listing, and a
copy in one request or in parts.
-/

namespace Apitap.Publish

open Naming (Text)
open Bucket (Drift Serves env)

/-- A write to the key failed, and may still happen. -/
def Late (s : Bucket) (key : Text) : Prop := ∃ v, (key, v) ∈ s.late

/-- What one run works on. -/
structure Scene where
  dialect : Dialect
  dir : Text
  staging : Text
  /-- The object that goes besides. -/
  csv : Text
  /-- Where others write. -/
  others : Text → Prop
  /-- What the table's directory may hold in the end. -/
  parts : Text → Bytes → Prop
  /-- The bucket before the run. -/
  before : Bucket

namespace Scene

variable (sc : Scene)

def Ours (key : Text) : Prop := PartLike sc.dir key ∨ sc.staging <+: key

/-- Neither the run's nor anyone else's. -/
def Away (key : Text) : Prop := ¬ sc.Ours key ∧ ¬ sc.others key ∧ key ≠ sc.csv

/-- The run's keys are its own. -/
structure Apart : Prop where
  others : ∀ key, sc.others key → ¬ sc.Ours key
  csv : ¬ sc.Ours sc.csv
  staged : ∀ key, sc.staging <+: key → ¬ PartLike sc.dir key
  quiet : ∀ key, sc.Away key → ¬ Late sc.before key

end Scene

/-- What a run knows of its keys; `none` where a write to the key failed. -/
abbrev Knowledge := Text → Option (Option Bytes)

structure Sound (sc : Scene) (K : Knowledge) (s : Bucket) : Prop where
  known : ∀ key, sc.Ours key → ∀ v, K key = some v → s.objects key = v ∧ ¬ Late s key
  unknown : ∀ key, sc.Ours key → K key = none → Late s key
  parts : ∀ key v, PartLike sc.dir key → s.objects key = some v → sc.parts key v
  coming : ∀ key v, PartLike sc.dir key → (key, some v) ∈ s.late → sc.parts key v
  away : ∀ key, sc.Away key → s.objects key = sc.before.objects key ∧ ¬ Late s key
  later : sc.before.late ⊆ s.late

variable {sc : Scene} {K K' : Knowledge} {s s' : Bucket} {key src dst : Text}

theorem set_other {k : Text} {v : Option Bytes} (other : k ≠ key) :
    (s.set key v).objects k = s.objects k := Function.update_of_ne other _ _

theorem set_same {v : Option Bytes} : (s.set key v).objects key = v := Function.update_self _ _ _

theorem Sound.drift (apart : sc.Apart) (sound : Sound sc K s) (moves : Drift sc.others s s') :
    Sound sc K s' := by
  cases moves with
  | @other key v free =>
      refine ⟨?_, sound.unknown, ?_, sound.coming, ?_, sound.later⟩
      · intro k ours w is
        have differ : k ≠ key := fun same => apart.others key free (same ▸ ours)
        rw [set_other differ]
        exact sound.known k ours w is
      · intro k w like there
        have differ : k ≠ key := fun same => apart.others key free (.inl (same ▸ like))
        rw [set_other differ] at there
        exact sound.parts k w like there
      · intro k away
        have differ : k ≠ key := fun same => away.2.1 (same ▸ free)
        rw [set_other differ]
        exact sound.away k away
  | @land key v lost =>
      refine ⟨?_, sound.unknown, ?_, sound.coming, ?_, sound.later⟩
      · intro k ours w is
        obtain ⟨there, quiet⟩ := sound.known k ours w is
        have differ : k ≠ key := fun same => quiet ⟨v, same ▸ lost⟩
        rw [set_other differ]
        exact ⟨there, quiet⟩
      · intro k w like there
        obtain rfl | differ := eq_or_ne k key
        · rw [set_same] at there
          subst there
          exact sound.coming k w like lost
        · rw [set_other differ] at there
          exact sound.parts k w like there
      · intro k away
        obtain ⟨there, quiet⟩ := sound.away k away
        have differ : k ≠ key := fun same => quiet ⟨v, same ▸ lost⟩
        rw [set_other differ]
        exact ⟨there, quiet⟩

theorem Sound.upload (sound : Sound sc K s) (id : Nat) (u : Option Upload) :
    Sound sc K (s.upload id u) :=
  ⟨sound.known, sound.unknown, sound.parts, sound.coming, sound.away, sound.later⟩

/-- A write to a key of the run. -/
theorem Sound.write (sound : Sound sc K s) (ours : sc.Ours key) {v : Option Bytes}
    (allowed : ∀ w, v = some w → PartLike sc.dir key → sc.parts key w) :
    Sound sc (if K key = none then K else Function.update K key (some v)) (s.set key v) := by
  refine ⟨?_, ?_, ?_, sound.coming, ?_, sound.later⟩
  · intro k mine w is
    split_ifs at is with open_
    · have differ : k ≠ key := by
        rintro rfl
        rw [open_] at is
        cases is
      rw [set_other differ]
      exact sound.known k mine w is
    · obtain rfl | differ := eq_or_ne k key
      · rw [Function.update_self] at is
        obtain ⟨old, was⟩ := Option.ne_none_iff_exists'.mp open_
        rw [set_same]
        exact ⟨Option.some.inj is, (sound.known k mine old was).2⟩
      · rw [Function.update_of_ne differ] at is
        rw [set_other differ]
        exact sound.known k mine w is
  · intro k mine is
    split_ifs at is with open_
    · exact sound.unknown k mine is
    · obtain rfl | differ := eq_or_ne k key
      · rw [Function.update_self] at is
        cases is
      · rw [Function.update_of_ne differ] at is
        exact sound.unknown k mine is
  · intro k w like there
    obtain rfl | differ := eq_or_ne k key
    · rw [set_same] at there
      exact allowed w there like
    · rw [set_other differ] at there
      exact sound.parts k w like there
  · intro k away
    have differ : k ≠ key := fun same => away.1 (same ▸ ours)
    rw [set_other differ]
    exact sound.away k away

/-- A write to a key of the run whose answer failed. -/
theorem Sound.lose (sound : Sound sc K s) (ours : sc.Ours key) {v : Option Bytes}
    (allowed : ∀ w, v = some w → PartLike sc.dir key → sc.parts key w) :
    Sound sc (Function.update K key none) (s.lose key v) := by
  have late {k : Text} (differ : k ≠ key) (quiet : ¬ Late s k) : ¬ Late (s.lose key v) k := by
    rintro ⟨w, mem⟩
    obtain same | mem := List.mem_cons.mp mem
    · exact differ (Prod.mk.inj same).1
    · exact quiet ⟨w, mem⟩
  refine ⟨?_, ?_, sound.parts, ?_, ?_, fun p mem => List.mem_cons_of_mem _ (sound.later mem)⟩
  · intro k mine w is
    obtain rfl | differ := eq_or_ne k key
    · rw [Function.update_self] at is
      cases is
    · rw [Function.update_of_ne differ] at is
      obtain ⟨there, quiet⟩ := sound.known k mine w is
      exact ⟨there, late differ quiet⟩
  · intro k mine is
    obtain rfl | differ := eq_or_ne k key
    · exact ⟨v, List.mem_cons_self⟩
    · rw [Function.update_of_ne differ] at is
      obtain ⟨w, mem⟩ := sound.unknown k mine is
      exact ⟨w, List.mem_cons_of_mem _ mem⟩
  · intro k w like mem
    obtain same | mem := List.mem_cons.mp mem
    · obtain ⟨rfl, is⟩ := Prod.mk.inj same
      exact allowed w is.symm like
    · exact sound.coming k w like mem
  · intro k away
    have differ : k ≠ key := fun same => away.1 (same ▸ ours)
    exact ⟨(sound.away k away).1, late differ (sound.away k away).2⟩

/-- A write to the object that goes besides. -/
theorem Sound.besides (apart : sc.Apart) (sound : Sound sc K s) (v : Option Bytes) :
    Sound sc K (s.set sc.csv v) := by
  have differ {k : Text} (ours : sc.Ours k) : k ≠ sc.csv := fun same => apart.csv (same ▸ ours)
  refine ⟨?_, sound.unknown, ?_, sound.coming, ?_, sound.later⟩
  · intro k ours w is
    rw [set_other (differ ours)]
    exact sound.known k ours w is
  · intro k w like there
    rw [set_other (differ (.inl like))] at there
    exact sound.parts k w like there
  · intro k away
    rw [set_other away.2.2]
    exact sound.away k away

theorem Sound.besidesLost (apart : sc.Apart) (sound : Sound sc K s) :
    Sound sc K (s.lose sc.csv none) := by
  have late {k : Text} (differ : k ≠ sc.csv) (quiet : ¬ Late s k) :
      ¬ Late (s.lose sc.csv none) k := by
    rintro ⟨w, mem⟩
    obtain same | mem := List.mem_cons.mp mem
    · exact differ (Prod.mk.inj same).1
    · exact quiet ⟨w, mem⟩
  refine ⟨?_, ?_, sound.parts, ?_, ?_, fun p mem => List.mem_cons_of_mem _ (sound.later mem)⟩
  · intro k ours w is
    obtain ⟨there, quiet⟩ := sound.known k ours w is
    exact ⟨there, late (fun same => apart.csv (same ▸ ours)) quiet⟩
  · intro k ours is
    obtain ⟨w, mem⟩ := sound.unknown k ours is
    exact ⟨w, List.mem_cons_of_mem _ mem⟩
  · intro k w like mem
    obtain same | mem := List.mem_cons.mp mem
    · cases (Prod.mk.inj same).2
    · exact sound.coming k w like mem
  · intro k away
    exact ⟨(sound.away k away).1, late away.2.2 (sound.away k away).2⟩

/-! ## Calls -/

/-- What readers may rely on at every moment. -/
def Held (sc : Scene) (J : Knowledge → Prop) (s : Bucket) : Prop := ∃ K, Sound sc K s ∧ J K

/-- Only the named keys may have changed. -/
def Knowledge.Beside (K K' : Knowledge) (keys : Text → Prop) : Prop :=
  ∀ key, ¬ keys key → K' key = K key

theorem Knowledge.Beside.mono {keys more : Text → Prop} (beside : K.Beside K' keys)
    (sub : ∀ k, keys k → more k) : K.Beside K' more :=
  fun k outside => beside k fun inside => outside (sub k inside)

theorem Knowledge.Beside.trans {keys : Text → Prop} {K'' : Knowledge} (first : K.Beside K' keys)
    (rest : K'.Beside K'' keys) : K.Beside K'' keys :=
  fun k outside => (rest k outside).trans (first k outside)

section Calls

variable {J : Knowledge → Prop} {α β : Type} {Q : α → Bucket → Prop} (apart : sc.Apart)

include apart

theorem Sound.ask {call : Call} {k : Answer → Client α} (sound : Sound sc K s) (fine : J K)
    (next : ∀ s ans s', Sound sc K s → Serves sc.dialect s call ans s' →
      (env sc.dialect sc.others).Meets (Held sc J) Q (k ans) s') :
    (env sc.dialect sc.others).Meets (Held sc J) Q (.call call k) s :=
  .call (P := Sound sc K) (fun _ _ sound moves => sound.drift apart moves) sound
    (fun _ sound => ⟨K, sound, fine⟩) next

theorem Sound.give {a : α} (sound : Sound sc K s) (fine : J K) (post : ∀ s, Sound sc K s → Q a s) :
    (env sc.dialect sc.others).Meets (Held sc J) Q (.pure a) s :=
  .pure (P := Sound sc K) (fun _ _ sound moves => sound.drift apart moves) sound
    (fun _ sound => ⟨K, sound, fine⟩) post

/-- A deleted key, or one whose delete failed. -/
theorem meets_delete (sound : Sound sc K s) (ours : sc.Ours key)
    (fine : ∀ K', K.Beside K' (· = key) → J K') :
    (env sc.dialect sc.others).Meets (Held sc J)
      (fun r s => ∃ K', Sound sc K' s ∧ K.Beside K' (· = key) ∧
        (r = .ok () → ∀ v, K' key ≠ some (some v)))
      (send (.delete key)) s := by
  have same : J K := fine K fun _ _ => rfl
  refine sound.ask apart same fun s ans s' sound served => ?_
  cases served with
  | delete =>
      have gone := sound.write ours (v := none) (fun w is => by cases is)
      have beside : K.Beside (if K key = none then K else Function.update K key (some none))
          (· = key) := by
        intro k differ
        split_ifs
        · rfl
        · exact Function.update_of_ne differ _ _
      refine gone.give apart (fine _ beside) fun s sound => ⟨_, sound, beside, fun _ v => ?_⟩
      split_ifs with open_
      · rw [open_]
        exact fun is => by cases is
      · rw [Function.update_self]
        exact fun is => by cases Option.some.inj is
  | refused =>
      exact sound.give apart same fun s sound =>
        ⟨K, sound, fun _ _ => rfl, fun wrong => by cases wrong⟩
  | deleteLost =>
      have gone := sound.lose ours (v := none) (fun w is => by cases is)
      have beside : K.Beside (Function.update K key none) (· = key) :=
        fun k differ => Function.update_of_ne differ _ _
      exact gone.give apart (fine _ beside) fun s sound =>
        ⟨_, sound, beside, fun wrong => by cases wrong⟩

theorem meets_tryDelete {keys : List Text} (sound : Sound sc K s) (ours : ∀ k ∈ keys, sc.Ours k)
    (fine : ∀ K', K.Beside K' (· ∈ keys) → J K') :
    (env sc.dialect sc.others).Meets (Held sc J)
      (fun _ s => ∃ K', Sound sc K' s ∧ K.Beside K' (· ∈ keys)) (tryDelete keys) s := by
  induction keys generalizing K s with
  | nil =>
      have same : J K := fine K fun _ _ => rfl
      exact sound.give apart same fun s sound => ⟨K, sound, fun _ _ => rfl⟩
  | cons key keys ih =>
      have single : ∀ k, k = key → k ∈ key :: keys := fun k same => same ▸ List.mem_cons_self
      have later : ∀ k, k ∈ keys → k ∈ key :: keys := fun k => List.mem_cons_of_mem _
      refine (meets_delete apart sound (ours key List.mem_cons_self)
        fun K' beside => fine K' (beside.mono single)).bind fun r s post => ?_
      obtain ⟨K₁, sound, beside, -⟩ := post
      have first := beside.mono single
      refine (ih sound (fun k mem => ours k (later k mem))
        fun K' rest => fine K' (first.trans (rest.mono later))).mono fun _ s post => ?_
      obtain ⟨K', sound, rest⟩ := post
      exact ⟨K', sound, first.trans (rest.mono later)⟩

theorem meets_deleteAll {keys : List Text} (sound : Sound sc K s) (ours : ∀ k ∈ keys, sc.Ours k)
    (fine : ∀ K', K.Beside K' (· ∈ keys) → J K') :
    (env sc.dialect sc.others).Meets (Held sc J)
      (fun _ s => ∃ K', Sound sc K' s ∧ K.Beside K' (· ∈ keys)) (deleteAll keys) s := by
  induction keys generalizing K s with
  | nil =>
      have same : J K := fine K fun _ _ => rfl
      exact sound.give apart same fun s sound => ⟨K, sound, fun _ _ => rfl⟩
  | cons key keys ih =>
      have single : ∀ k, k = key → k ∈ key :: keys := fun k same => same ▸ List.mem_cons_self
      have later : ∀ k, k ∈ keys → k ∈ key :: keys := fun k => List.mem_cons_of_mem _
      refine (meets_delete apart sound (ours key List.mem_cons_self)
        fun K' beside => fine K' (beside.mono single)).bind fun r s post => ?_
      obtain ⟨K₁, sound, beside, -⟩ := post
      have first := beside.mono single
      match r with
      | .error e => exact sound.give apart (fine K₁ first) fun s sound => ⟨K₁, sound, first⟩
      | .ok () =>
          refine (ih sound (fun k mem => ours k (later k mem))
            fun K' rest => fine K' (first.trans (rest.mono later))).mono fun _ s post => ?_
          obtain ⟨K', sound, rest⟩ := post
          exact ⟨K', sound, first.trans (rest.mono later)⟩

/-- What a sweep of a listing may delete. -/
def Swept (sc : Scene) (fresh stale : List Text) (key : Text) : Prop :=
  key ∈ stale ∧ key ∉ fresh ∧ isOwnPart sc.dir key = true

/-- The sweep leaves no old part but those it names and those with a write to come. -/
theorem meets_sweep {fresh stale : List Text} (sound : Sound sc K s)
    (fine : ∀ K', K.Beside K' (Swept sc fresh stale) → J K') :
    (env sc.dialect sc.others).Meets (Held sc J)
      (fun left s => ∃ K', Sound sc K' s ∧ K.Beside K' (Swept sc fresh stale) ∧
        ∀ k, Swept sc fresh stale k → k ∉ left → ∀ v, K' k ≠ some (some v))
      (sweep sc.dir fresh stale) s := by
  induction stale generalizing K s with
  | nil =>
      have same : J K := fine K fun _ _ => rfl
      exact sound.give apart same fun s sound =>
        ⟨K, sound, fun _ _ => rfl, fun k swept => by cases swept.1⟩
  | cons key stale ih =>
      have later : ∀ k, Swept sc fresh stale k → Swept sc fresh (key :: stale) k :=
        fun k swept => ⟨List.mem_cons_of_mem _ swept.1, swept.2⟩
      have test : (!fresh.contains key && isOwnPart sc.dir key) = true ↔
          key ∉ fresh ∧ isOwnPart sc.dir key = true := by
        simp
      rw [sweep]
      split_ifs with old
      · have old := test.mp old
        have single : ∀ k, k = key → Swept sc fresh (key :: stale) k := by
          rintro k rfl
          exact ⟨List.mem_cons_self, old⟩
        refine (meets_delete apart sound (.inl (PartLike.of_isOwnPart old.2))
          fun K' beside => fine K' (beside.mono single)).bind fun r s post => ?_
        obtain ⟨K₁, sound, beside, gone⟩ := post
        have first := beside.mono single
        refine (ih sound fun K' rest => fine K' (first.trans (rest.mono later))).bind
          fun left s post => ?_
        obtain ⟨K', sound, rest, swept⟩ := post
        have whole := first.trans (rest.mono later)
        match r with
        | .error e =>
            refine sound.give apart (fine K' whole) fun s sound => ⟨K', sound, whole, ?_⟩
            rintro k ⟨mem, old⟩ kept
            obtain ⟨differ, kept⟩ := not_or.mp (mt List.mem_cons.mpr kept)
            obtain same | mem := List.mem_cons.mp mem
            · exact absurd same differ
            · exact swept k ⟨mem, old⟩ kept
        | .ok () =>
            refine sound.give apart (fine K' whole) fun s sound => ⟨K', sound, whole, ?_⟩
            rintro k ⟨mem, old⟩ kept
            by_cases again : k ∈ stale
            · exact swept k ⟨again, old⟩ kept
            · obtain rfl : k = key := (List.mem_cons.mp mem).resolve_right again
              rw [rest k fun swept => again swept.1]
              exact gone rfl
      · refine (ih sound fun K' rest => fine K' (rest.mono later)).mono fun left s post => ?_
        obtain ⟨K', sound, rest, swept⟩ := post
        refine ⟨K', sound, rest.mono later, ?_⟩
        rintro k ⟨mem, both⟩ kept
        obtain rfl | mem := List.mem_cons.mp mem
        · exact absurd (test.mpr both) old
        · exact swept k ⟨mem, both⟩ kept

/-! ## Listings -/

omit apart

/-- A complete listing. -/
structure Listed (sc : Scene) (K : Knowledge) (dir : Text) (keys : List Text) : Prop where
  sorted : keys.Pairwise (· < ·)
  under : ∀ k ∈ keys, dir <+: k
  all : ∀ k, sc.Ours k → dir <+: k → ∀ v, K k = some (some v) → k ∈ keys
  only : ∀ k ∈ keys, sc.Ours k → K k ≠ some none

/-- A listing up to a token. -/
structure Read (sc : Scene) (K : Knowledge) (dir : Text) (token : Option Text)
    (keys : List Text) : Prop where
  sorted : keys.Pairwise (· < ·)
  under : ∀ k ∈ keys, dir <+: k
  upto : ∀ k ∈ keys, ∃ t ∈ token, k ≤ t
  all : ∀ k, sc.Ours k → dir <+: k → ∀ v, K k = some (some v) → (∃ t ∈ token, k ≤ t) → k ∈ keys
  only : ∀ k ∈ keys, sc.Ours k → K k ≠ some none

variable {dir : Text} {token upto : Option Text} {out keys : List Text}

theorem Read.start (sc : Scene) (K : Knowledge) (dir : Text) : Read sc K dir none [] := by
  refine ⟨.nil, ?_, ?_, ?_, ?_⟩
  · exact fun k mem => by cases mem
  · exact fun k mem => by cases mem
  · rintro k - - v - ⟨t, mem, -⟩
    cases mem
  · exact fun k mem => by cases mem

/-- One page more. -/
theorem Read.page (read : Read sc K dir token out) (sound : Sound sc K s)
    (sorted : keys.Pairwise (· < ·))
    (listed : ∀ key, key ∈ keys ↔ s.objects key ≠ none ∧ dir <+: key ∧
      (∀ t ∈ token, t < key) ∧ ∀ u ∈ upto, key ≤ u) :
    (out ++ keys).Pairwise (· < ·) ∧ (∀ k ∈ out ++ keys, dir <+: k) ∧
      (∀ k ∈ out ++ keys, sc.Ours k → K k ≠ some none) ∧
      ∀ k, sc.Ours k → dir <+: k → ∀ v, K k = some (some v) → (∀ u ∈ upto, k ≤ u) →
        k ∈ out ++ keys := by
  refine ⟨?_, ?_, ?_, ?_⟩
  · refine List.pairwise_append.mpr ⟨read.sorted, sorted, fun a a_mem b b_mem => ?_⟩
    obtain ⟨t, here, upto⟩ := read.upto a a_mem
    exact lt_of_le_of_lt upto (((listed b).mp b_mem).2.2.1 t here)
  · intro k mem
    obtain old | new := List.mem_append.mp mem
    · exact read.under k old
    · exact ((listed k).mp new).2.1
  · intro k mem ours absent
    obtain old | new := List.mem_append.mp mem
    · exact read.only k old ours absent
    · exact ((listed k).mp new).1 (sound.known k ours none absent).1
  · intro k ours under v is within
    by_cases old : ∃ t ∈ token, k ≤ t
    · exact List.mem_append_left _ (read.all k ours under v is old)
    · apply List.mem_append_right
      refine (listed k).mpr ⟨?_, under, fun t here => ?_, within⟩
      · rw [(sound.known k ours _ is).1]
        exact Option.some_ne_none v
      · exact not_le.mp fun below => old ⟨t, here, below⟩

/-- A page is the last, or the listing goes on behind its marker. -/
theorem Read.served {ans : Answer} (read : Read sc K dir token out) (sound : Sound sc K s)
    (served : Serves sc.dialect s (.page dir token) ans s') :
    Sound sc K s' ∧ ((∃ e, ans = .error e) ∨ ∃ keys truncated next,
      ans = .page keys truncated next ∧
        ((sc.dialect.Complete truncated next ∧ Listed sc K dir (out ++ keys)) ∨
          ∃ u, next = some u ∧ u ≠ [] ∧ truncated ≠ some false ∧
            Read sc K dir (some u) (out ++ keys))) := by
  cases served with
  | @page _ _ upto next keys truncated sorted listed last more =>
      refine ⟨sound, .inr ⟨keys, truncated, next, rfl, ?_⟩⟩
      obtain ⟨sorted, under, only, all⟩ := read.page sound sorted listed
      cases upto with
      | none =>
          refine .inl ⟨last rfl, sorted, under, fun k ours below v is => ?_, only⟩
          exact all k ours below v is fun u mem => by cases mem
      | some u =>
          obtain ⟨is, some_, open_, ahead⟩ := more u rfl
          refine .inr ⟨u, is, some_, open_, sorted, under, ?_, ?_, only⟩
          · intro k mem
            refine ⟨u, rfl, ?_⟩
            obtain old | new := List.mem_append.mp mem
            · obtain ⟨t, here, below⟩ := read.upto k old
              exact le_trans below (ahead t here).le
            · exact ((listed k).mp new).2.2.2 u rfl
          · intro k ours below v is within
            refine all k ours below v is fun w same => ?_
            obtain ⟨t, here, within⟩ := within
            rw [Option.mem_def.mp same] at here
            exact Option.some.inj here ▸ within
  | refused => exact ⟨sound, .inl ⟨_, rfl⟩⟩

include apart

/-- What a listing answers. -/
def Lists (sc : Scene) (K : Knowledge) (dir : Text) (r : Except Error (List Text)) (s : Bucket) :
    Prop :=
  Sound sc K s ∧ ∀ keys, r = .ok keys → Listed sc K dir keys

theorem Lists.fail {e : Error} (sound : Sound sc K s) (fine : J K) :
    (env sc.dialect sc.others).Meets (Held sc J) (Lists sc K dir) (.pure (.error e)) s :=
  sound.give apart fine fun _ sound => ⟨sound, fun _ wrong => by cases wrong⟩

theorem Lists.done (sound : Sound sc K s) (fine : J K) (listed : Listed sc K dir keys) :
    (env sc.dialect sc.others).Meets (Held sc J) (Lists sc K dir) (.pure (.ok keys)) s :=
  sound.give apart fine fun _ sound => ⟨sound, fun _ is => Except.ok.inj is ▸ listed⟩

/-- A page, when every way the listing goes on is right. -/
theorem meets_onPage {goOn : List Text → Option Bool → Option Text →
      Client (Except Error (List Text))} (fine : J K) (sound : Sound sc K s)
    (read : Read sc K dir token out)
    (ends : ∀ keys truncated next, sc.dialect.Complete truncated next →
      goOn keys truncated next = .pure (.ok (out ++ keys)))
    (more : ∀ s keys truncated u, u ≠ [] → truncated ≠ some false → Sound sc K s →
      Read sc K dir (some u) (out ++ keys) →
      (env sc.dialect sc.others).Meets (Held sc J) (Lists sc K dir)
        (goOn keys truncated (some u)) s) :
    (env sc.dialect sc.others).Meets (Held sc J) (Lists sc K dir)
      (.call (.page dir token) (onPage goOn)) s := by
  refine sound.ask apart fine fun s ans s' sound served => ?_
  obtain ⟨sound, ⟨e, rfl⟩ | ⟨keys, truncated, next, rfl, page⟩⟩ := read.served sound served
  · exact Lists.fail apart sound fine
  · obtain ⟨complete, listed⟩ | ⟨u, rfl, some_, open_, read⟩ := page
    · rw [onPage, ends keys truncated next complete]
      exact Lists.done apart sound fine listed
    · exact more s' keys truncated u some_ open_ sound read

theorem meets_s3ListFrom (s3 : sc.dialect = .s3) (fine : J K) (left : Nat)
    (sound : Sound sc K s) (read : Read sc K dir token out) :
    (env sc.dialect sc.others).Meets (Held sc J) (Lists sc K dir)
      (s3ListFrom dir left token out) s := by
  induction left generalizing s token out with
  | zero =>
      unfold s3ListFrom
      refine meets_onPage apart fine sound read ?_ ?_
      · intro keys truncated next complete
        rw [s3] at complete
        exact ended complete
      · intro s keys truncated u some_ open_ sound read
        rw [nextMarker_some some_]
        simp only [if_neg open_]
        exact Lists.fail apart sound fine
  | succ left ih =>
      unfold s3ListFrom
      refine meets_onPage apart fine sound read ?_ ?_
      · intro keys truncated next complete
        rw [s3] at complete
        exact ended complete
      · intro s keys truncated u some_ open_ sound read
        rw [nextMarker_some some_]
        simp only [if_neg open_]
        exact ih sound read

theorem meets_gcsListFrom (gcs : sc.dialect = .gcs) (fine : J K) (turns : Nat)
    (sound : Sound sc K s) (read : Read sc K dir token out) :
    (env sc.dialect sc.others).Meets (Held sc J) (Lists sc K dir)
      (gcsListFrom dir turns token out) s := by
  induction turns generalizing s token out with
  | zero =>
      refine sound.ask apart fine fun s ans s' sound served => ?_
      cases served with
      | refused asks => exact absurd rfl asks
  | succ turns ih =>
      refine meets_onPage apart fine sound read ?_ ?_
      · intro keys truncated next complete
        rw [gcs] at complete
        have last : next = none := complete
        rw [last]
      · intro s keys truncated u some_ open_ sound read
        exact ih sound read

theorem meets_list {store : Store} (same : sc.dialect = store.dialect) (fine : J K)
    (sound : Sound sc K s) (dir : Text) :
    (env sc.dialect sc.others).Meets (Held sc J) (Lists sc K dir) (store.list dir) s := by
  cases store with
  | s3 limit => exact meets_s3ListFrom apart same fine _ sound (.start sc K dir)
  | gcsParquet turns => exact meets_gcsListFrom apart same fine turns sound (.start sc K dir)

/-! ## Copies -/

/-- The copy is there when it says so, and nothing else has changed. -/
def Copied (sc : Scene) (K : Knowledge) (dst : Text) (v : Bytes) (r : Except Error Unit)
    (s : Bucket) : Prop :=
  ∃ K', Sound sc K' s ∧ K.Beside K' (· = dst) ∧ (r = .ok () → K' dst = some (some v))

variable {v : Bytes}

theorem Copied.failed {e : Error} (sound : Sound sc K s) (fine : J K) :
    (env sc.dialect sc.others).Meets (Held sc J) (Copied sc K dst v) (.pure (.error e)) s :=
  sound.give apart fine fun _ sound => ⟨K, sound, fun _ _ => rfl, fun wrong => by cases wrong⟩

/-- The copy was carried out. -/
theorem Copied.done (sound : Sound sc K s) (absent : K dst = some none)
    (like : PartLike sc.dir dst) (allowed : sc.parts dst v)
    (fine : ∀ K', K.Beside K' (· = dst) → J K') :
    (env sc.dialect sc.others).Meets (Held sc J) (Copied sc K dst v) (.pure (.ok ()))
      (s.set dst (some v)) := by
  have wrote := sound.write (.inl like) (v := some v) fun w is _ => Option.some.inj is ▸ allowed
  have known : K dst ≠ Option.none := by
    rw [absent]
    exact Option.some_ne_none _
  rw [if_neg known] at wrote
  have beside : K.Beside (Function.update K dst (some (some v))) (· = dst) :=
    fun k differ => Function.update_of_ne differ _ _
  exact wrote.give apart (fine _ beside) fun s sound =>
    ⟨_, sound, beside, fun _ => Function.update_self _ _ _⟩

/-- The copy may have been carried out. -/
theorem Copied.lost {e : Error} (sound : Sound sc K s) (like : PartLike sc.dir dst)
    (allowed : sc.parts dst v) (fine : ∀ K', K.Beside K' (· = dst) → J K') :
    (env sc.dialect sc.others).Meets (Held sc J) (Copied sc K dst v) (.pure (.error e))
      (s.lose dst (some v)) := by
  have lost := sound.lose (.inl like) (v := some v) fun w is _ => Option.some.inj is ▸ allowed
  have beside : K.Beside (Function.update K dst Option.none) (· = dst) :=
    fun k differ => Function.update_of_ne differ _ _
  exact lost.give apart (fine _ beside) fun s sound =>
    ⟨_, sound, beside, fun wrong => by cases wrong⟩

variable (ours : sc.Ours src) (source : K src = some (some v)) (absent : K dst = some none)
  (like : PartLike sc.dir dst) (allowed : sc.parts dst v)
  (fine : ∀ K', K.Beside K' (· = dst) → J K')

include ours source absent like allowed fine

theorem meets_copyOne (sound : Sound sc K s) :
    (env sc.dialect sc.others).Meets (Held sc J) (Copied sc K dst v)
      (send (.copyOne src dst)) s := by
  have same : J K := fine K fun _ _ => rfl
  refine sound.ask apart same fun s ans s' sound served => ?_
  have there := (sound.known src ours _ source).1
  cases served with
  | copyOne is =>
      obtain rfl := Option.some.inj (there.symm.trans is)
      exact Copied.done apart sound absent like allowed fine
  | refused => exact Copied.failed apart sound same
  | copyOneLost is =>
      obtain rfl := Option.some.inj (there.symm.trans is)
      exact Copied.lost apart sound like allowed fine

theorem meets_gcsRewriteFrom (turns : Nat) (token : Option Nat) (sound : Sound sc K s) :
    (env sc.dialect sc.others).Meets (Held sc J) (Copied sc K dst v)
      (gcsRewriteFrom src dst turns token) s := by
  have same : J K := fine K fun _ _ => rfl
  induction turns generalizing s token with
  | zero =>
      refine sound.ask apart same fun s ans s' sound served => ?_
      cases served with
      | refused asks => exact absurd rfl asks
  | succ turns ih =>
      refine sound.ask apart same fun s ans s' sound served => ?_
      have there := (sound.known src ours _ source).1
      cases served with
      | rewritten is =>
          obtain rfl := Option.some.inj (there.symm.trans is)
          exact Copied.done apart sound absent like allowed fine
      | @rewriting _ _ _ next =>
          cases next with
          | none => exact Copied.failed apart sound same
          | some next => exact ih (some next) sound
      | refused => exact Copied.failed apart sound same
      | rewriteLost is =>
          obtain rfl := Option.some.inj (there.symm.trans is)
          exact Copied.lost apart sound like allowed fine

end Calls

/-! ### In parts -/

theorem assembled_append {u : Upload} {es fs : List (Nat × Nat)} {a b : Bytes}
    (front : Bucket.assembled u es = some a) (back : Bucket.assembled u fs = some b) :
    Bucket.assembled u (es ++ fs) = some (a ++ b) := by
  obtain ⟨as, first, rfl⟩ := Option.map_eq_some_iff.mp front
  obtain ⟨bs, second, rfl⟩ := Option.map_eq_some_iff.mp back
  rw [Bucket.assembled, List.mapM_append, first, second]
  exact congrArg some List.flatten_append

/-- A part of another number changes nothing. -/
theorem assembled_put {u : Upload} {es : List (Nat × Nat)} {n : Nat} {part : Bytes × Nat}
    (below : ∀ p ∈ es, p.1 < n) : Bucket.assembled (u.put n part) es = Bucket.assembled u es := by
  unfold Bucket.assembled
  congr 1
  induction es with
  | nil => rfl
  | cons p es ih =>
      have other : (u.put n part).parts p.1 = u.parts p.1 :=
        Function.update_of_ne (Nat.ne_of_lt (below p List.mem_cons_self)) _ _
      rw [List.mapM_cons, List.mapM_cons, other,
        ih fun q mem => below q (List.mem_cons_of_mem _ mem)]

theorem assembled_single {u : Upload} {n tag : Nat} {bytes : Bytes} :
    Bucket.assembled (u.put n (bytes, tag)) [(n, tag)] = some bytes := by
  have here : (u.put n (bytes, tag)).parts n = some (bytes, tag) := Function.update_self _ _ _
  rw [Bucket.assembled, List.mapM_cons, here, Option.bind_some, if_pos rfl]
  exact congrArg some (List.append_nil bytes)

/-- The parts of an upload are the source up to an offset. -/
structure Filled (u : Upload) (dst : Text) (v : Bytes) (etags : List (Nat × Nat)) (at_ n : Nat) :
    Prop where
  key : u.key = dst
  ascending : (etags.map (·.1)).Pairwise (· < ·)
  below : ∀ p ∈ etags, p.1 < n
  within : at_ ≤ v.length
  whole : Bucket.assembled u etags = some (v.take at_)

theorem Filled.start (dst : Text) (v : Bytes) : Filled ⟨dst, fun _ => none⟩ dst v [] 0 1 :=
  ⟨rfl, .nil, fun p mem => (by cases mem), Nat.zero_le _, rfl⟩

theorem Filled.put {u : Upload} {v : Bytes} {etags : List (Nat × Nat)} {at_ n last tag : Nat}
    (filled : Filled u dst v etags at_ n) (range : at_ ≤ last ∧ last < v.length) :
    Filled (u.put n ((v.drop at_).take (last + 1 - at_), tag)) dst v (etags ++ [(n, tag)])
      (last + 1) (n + 1) := by
  refine ⟨filled.key, ?_, ?_, range.2, ?_⟩
  · rw [List.map_append, List.pairwise_append]
    refine ⟨filled.ascending, List.pairwise_singleton _ _, fun a mem b last => ?_⟩
    obtain ⟨p, p_mem, rfl⟩ := List.mem_map.mp mem
    obtain rfl := List.mem_singleton.mp last
    exact filled.below p p_mem
  · intro p mem
    obtain old | new := List.mem_append.mp mem
    · exact Nat.lt_succ_of_lt (filled.below p old)
    · obtain rfl := List.mem_singleton.mp new
      exact Nat.lt_succ_self n
  · have front : Bucket.assembled (u.put n ((v.drop at_).take (last + 1 - at_), tag)) etags =
        some (v.take at_) := (assembled_put filled.below).trans filled.whole
    rw [assembled_append front assembled_single, ← List.take_add]
    congr 2
    omega

section Calls

variable {J : Knowledge → Prop} (apart : sc.Apart) {v : Bytes}

/-- What is known while an upload is open. -/
def Open (sc : Scene) (K : Knowledge) (id : Nat) (u : Upload) (s : Bucket) : Prop :=
  Sound sc K s ∧ s.uploads id = some u

theorem Open.drift (apart : sc.Apart) {id : Nat} {u : Upload} (open_ : Open sc K id u s)
    (moves : Drift sc.others s s') : Open sc K id u s' := by
  refine ⟨open_.1.drift apart moves, ?_⟩
  cases moves <;> exact open_.2

variable (ours : sc.Ours src) (source : K src = some (some v)) (absent : K dst = some none)
  (like : PartLike sc.dir dst) (allowed : sc.parts dst v)
  (fine : ∀ K', K.Beside K' (· = dst) → J K') (limit : PartLimit)

include apart ours source

/-- The upload's parts are the source, once all of them are in. -/
theorem meets_copyParts (same : J K) {id at_ n : Nat} {u : Upload} {etags : List (Nat × Nat)}
    (open_ : Open sc K id u s) (filled : Filled u dst v etags at_ n) :
    (env sc.dialect sc.others).Meets (Held sc J)
      (fun r s => Sound sc K s ∧ ∀ etags, r = .ok etags →
        ∃ u n, Open sc K id u s ∧ Filled u dst v etags v.length n)
      (copyParts limit src dst id v.length at_ n etags) s := by
  induction is : v.length - at_ using Nat.strong_induction_on generalizing s u at_ n etags with
  | _ left ih =>
      rw [copyParts]
      split_ifs with more
      · refine .call (P := Open sc K id u) (fun _ _ open_ moves => open_.drift apart moves) open_
          (fun _ open_ => ⟨K, open_.1, same⟩) fun s ans s' open_ served => ?_
        have there := (open_.1.known src ours _ source).1
        cases served with
        | uploadPartCopy held _ is range =>
            obtain rfl := Option.some.inj (open_.2.symm.trans held)
            obtain rfl := Option.some.inj (there.symm.trans is)
            have next := open_.1.upload id
            have smaller : v.length - (min (at_ + limit.bytes) v.length - 1 + 1) < left := by
              have := limit.least
              omega
            exact ih _ smaller ⟨next _, Function.update_self _ _ _⟩ (filled.put range) rfl
        | refused =>
            exact open_.1.give apart same fun s sound => ⟨sound, fun _ wrong => by cases wrong⟩
        | uploadPartCopyLost =>
            exact (open_.1.upload id _).give apart same fun s sound =>
              ⟨sound, fun _ wrong => by cases wrong⟩
      · have whole : at_ = v.length := Nat.le_antisymm filled.within (Nat.le_of_not_lt more)
        subst whole
        refine .pure (P := Open sc K id u) (fun _ _ open_ moves => open_.drift apart moves) open_
          (fun _ open_ => ⟨K, open_.1, same⟩) fun s open_ => ⟨open_.1, fun etags' is => ?_⟩
        obtain rfl := Except.ok.inj is
        exact ⟨u, n, open_, filled⟩

omit ours source
include absent like allowed fine

theorem meets_completeMultipart {id n : Nat} {u : Upload} {etags : List (Nat × Nat)}
    (open_ : Open sc K id u s) (filled : Filled u dst v etags v.length n) :
    (env sc.dialect sc.others).Meets (Held sc J) (Copied sc K dst v)
      (send (.completeMultipart dst id etags)) s := by
  have same : J K := fine K fun _ _ => rfl
  have all : Bucket.assembled u etags = some v := by
    rw [filled.whole, List.take_length]
  refine .call (P := Open sc K id u) (fun _ _ open_ moves => open_.drift apart moves) open_
    (fun _ open_ => ⟨K, open_.1, same⟩) fun s ans s' open_ served => ?_
  cases served with
  | completeMultipart held _ _ is =>
      obtain rfl := Option.some.inj (open_.2.symm.trans held)
      obtain rfl := Option.some.inj (all.symm.trans is)
      exact Copied.done apart (open_.1.upload id none) absent like allowed fine
  | refused => exact Copied.failed apart open_.1 same
  | completeMultipartLost held _ is =>
      obtain rfl := Option.some.inj (open_.2.symm.trans held)
      obtain rfl := Option.some.inj (all.symm.trans is)
      exact Copied.lost apart (open_.1.upload id none) like allowed fine

omit absent like allowed fine

theorem meets_abortMultipart {id : Nat} (same : J K) (sound : Sound sc K s) (key : Text) :
    (env sc.dialect sc.others).Meets (Held sc J) (fun _ s => Sound sc K s)
      (send (.abortMultipart key id)) s := by
  refine sound.ask apart same fun s ans s' sound served => ?_
  cases served with
  | abortMultipart => exact (sound.upload id none).give apart same fun _ sound => sound
  | refused => exact sound.give apart same fun _ sound => sound
  | abortMultipartLost => exact (sound.upload id _).give apart same fun _ sound => sound

include ours source absent like allowed fine

theorem meets_copyMultipart (sound : Sound sc K s) :
    (env sc.dialect sc.others).Meets (Held sc J) (Copied sc K dst v)
      (copyMultipart limit src dst v.length) s := by
  have same : J K := fine K fun _ _ => rfl
  refine sound.ask apart same fun s ans s' sound served => ?_
  cases served with
  | @createMultipart _ id _ =>
      have open_ : Open sc K id ⟨dst, fun _ => none⟩ (s.upload id (some ⟨dst, fun _ => none⟩)) :=
        ⟨sound.upload id _, Function.update_self _ _ _⟩
      refine Env.Meets.bind (Q := Copied sc K dst v) ?_ fun r s post => ?_
      · refine (meets_copyParts apart ours source limit same open_ (.start dst v)).bind
          fun r s post => ?_
        obtain ⟨sound, filled⟩ := post
        match r with
        | .error e => exact Copied.failed apart sound same
        | .ok etags =>
            obtain ⟨u, n, open_, filled⟩ := filled etags rfl
            exact meets_completeMultipart apart absent like allowed fine open_ filled
      · obtain ⟨K', sound, beside, copied⟩ := post
        match r with
        | .ok () =>
            exact sound.give apart (fine K' beside) fun s sound =>
              ⟨K', sound, beside, fun _ => copied rfl⟩
        | .error e =>
            refine (meets_abortMultipart apart (fine K' beside) sound dst).bind fun _ s sound => ?_
            exact sound.give apart (fine K' beside) fun s sound =>
              ⟨K', sound, beside, fun wrong => by cases wrong⟩
  | refused => exact Copied.failed apart sound same
  | createMultipartLost => exact Copied.failed apart (sound.upload _ _) same

theorem meets_s3Copy (sound : Sound sc K s) :
    (env sc.dialect sc.others).Meets (Held sc J) (Copied sc K dst v) (s3Copy limit src dst) s := by
  have same : J K := fine K fun _ _ => rfl
  refine sound.ask apart same fun s ans s' sound served => ?_
  cases served with
  | headSize is =>
      obtain rfl := Option.some.inj ((sound.known src ours _ source).1.symm.trans is)
      show (env sc.dialect sc.others).Meets _ _ (if _ then _ else _) _
      split_ifs
      · exact meets_copyOne apart ours source absent like allowed fine sound
      · exact meets_copyMultipart apart ours source absent like allowed fine limit sound
  | refused => exact Copied.failed apart sound same

theorem meets_copy (store : Store) (sound : Sound sc K s) :
    (env sc.dialect sc.others).Meets (Held sc J) (Copied sc K dst v) (store.copy src dst) s := by
  cases store with
  | s3 limit => exact meets_s3Copy apart ours source absent like allowed fine limit sound
  | gcsParquet turns =>
      exact meets_gcsRewriteFrom apart ours source absent like allowed fine turns none sound

end Calls

end Apitap.Publish
