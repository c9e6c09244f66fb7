import Apitap.Foundation.Footprint

/-!
# Overlays: a batch of writes with an ordered tail

An overlay stands between a table and what a sequence of writes makes of it. It
holds whether everything underneath is gone, the keys whose value underneath is
gone, one pending value for a key, and a tail of operations that run last, in
order. Once an operation is deferred, the keys it touches are sticky: a later
write to one of them must be deferred too, because the pending values land
before the tail runs.

The meaning of an overlay over a table is what landing it produces. Each way of
growing an overlay is a step after that meaning, and the only thing that makes
it so is that the tail is confined to the sticky keys.
-/

namespace Apitap.Foundation

variable {κ ν ε τ : Type*}

structure Overlay (κ ν τ : Type*) where
  cleared : Bool
  dropped : Set κ
  pending : κ → Option ν
  sticky : Set κ
  tail : List τ

namespace Overlay

open Classical in
/-- The table with the pending values landed and the tail not yet run. -/
noncomputable def base (o : Overlay κ ν τ) (T : κ → Option ν) : κ → Option ν := fun k =>
  (o.pending k).or (if o.cleared = true ∨ k ∈ o.dropped then none else T k)

/-- What landing the overlay on a table makes of it. -/
noncomputable def meaning (sem : τ → (κ → Option ν) → Except ε (κ → Option ν))
    (o : Overlay κ ν τ) (T : κ → Option ν) : Except ε (κ → Option ν) :=
  runOps sem o.tail (o.base T)

/-- The tail touches sticky keys only. -/
def Kept (sem : τ → (κ → Option ν) → Except ε (κ → Option ν)) (o : Overlay κ ν τ) : Prop :=
  ∀ op ∈ o.tail, Confined o.sticky (sem op)

def empty : Overlay κ ν τ := ⟨false, ∅, fun _ => none, ∅, []⟩

/-- The pending value of a key that is not sticky. -/
def put [DecidableEq κ] (o : Overlay κ ν τ) (k : κ) (v : ν) : Overlay κ ν τ :=
  { o with pending := Function.update o.pending k (some v) }

/-- A key's pending value goes, and so does what is underneath. -/
def drop [DecidableEq κ] (o : Overlay κ ν τ) (k : κ) : Overlay κ ν τ :=
  { o with pending := Function.update o.pending k none, dropped := insert k o.dropped }

/-- What is underneath a key goes; its pending value stays. -/
def doom (o : Overlay κ ν τ) (k : κ) : Overlay κ ν τ := { o with dropped := insert k o.dropped }

/-- The keys in `F` go sticky. -/
def stick (o : Overlay κ ν τ) (F : Set κ) : Overlay κ ν τ := { o with sticky := F ∪ o.sticky }

/-- An operation at the end of the tail, whose keys in `F` go sticky. -/
def defer (o : Overlay κ ν τ) (op : τ) (F : Set κ) : Overlay κ ν τ :=
  { o with tail := o.tail ++ [op] }.stick F

open Classical in
/-- Write a key: pending while it can be, else by the operation that does it. -/
noncomputable def write [DecidableEq κ] (o : Overlay κ ν τ) (k : κ) (v : ν) (op : τ) :
    Overlay κ ν τ :=
  if k ∈ o.sticky then o.defer op {k} else o.put k v

open Classical in
/-- Remove a key: at once while it can be, else by the operation that does it. -/
noncomputable def erase [DecidableEq κ] (o : Overlay κ ν τ) (k : κ) (op : τ) : Overlay κ ν τ :=
  if k ∈ o.sticky then o.defer op {k} else o.drop k

/-- Everything so far is moot. -/
def clear (_ : Overlay κ ν τ) : Overlay κ ν τ := { (empty : Overlay κ ν τ) with cleared := true }

theorem stick_of_subset {o : Overlay κ ν τ} {F : Set κ} (subset : F ⊆ o.sticky) :
    o.stick F = o := by
  rw [stick, Set.union_eq_self_of_subset_left subset]

theorem stick_stick (o : Overlay κ ν τ) (F G : Set κ) : (o.stick F).stick G = o.stick (G ∪ F) := by
  simp only [stick, Set.union_assoc]

/-- A deferred operation's keys may go sticky after it is pushed. -/
theorem stick_defer_empty (o : Overlay κ ν τ) (op : τ) (F : Set κ) :
    (o.defer op ∅).stick F = o.defer op F := by
  rw [defer, defer, stick_stick, Set.union_empty]

section write

variable [DecidableEq κ] {o : Overlay κ ν τ} {j k : κ} {v : ν} {op : τ}

@[simp] theorem sticky_write : (o.write k v op).sticky = o.sticky := by
  unfold write
  split
  · rename_i held
    exact Set.union_eq_self_of_subset_left (Set.singleton_subset_iff.mpr held)
  · rfl

@[simp] theorem sticky_erase : (o.erase k op).sticky = o.sticky := by
  unfold erase
  split
  · rename_i held
    exact Set.union_eq_self_of_subset_left (Set.singleton_subset_iff.mpr held)
  · rfl

theorem pending_write_of_ne (ne : j ≠ k) : (o.write k v op).pending j = o.pending j := by
  unfold write
  split
  · rfl
  · exact Function.update_of_ne ne ..

theorem pending_write_self (free : k ∉ o.sticky) : (o.write k v op).pending k = some v := by
  rw [write, if_neg free]
  exact Function.update_self ..

theorem pending_erase_of_ne (ne : j ≠ k) : (o.erase k op).pending j = o.pending j := by
  unfold erase
  split
  · rfl
  · exact Function.update_of_ne ne ..

theorem pending_erase_of_none (unqueued : o.pending k = none) :
    (o.erase k op).pending k = none := by
  unfold erase
  split
  · exact unqueued
  · exact Function.update_self ..

end write

section base

variable {o : Overlay κ ν τ} {T : κ → Option ν} {k : κ}

theorem base_of_pending {v : ν} (at_k : o.pending k = some v) : o.base T k = some v := by
  simp only [base, at_k, Option.some_or]

theorem base_of_gone (at_k : o.pending k = none) (gone : o.cleared = true ∨ k ∈ o.dropped) :
    o.base T k = none := by
  simp only [base, at_k, if_pos gone, Option.none_or]

theorem base_of_untouched (at_k : o.pending k = none) (kept : ¬(o.cleared = true ∨ k ∈ o.dropped)) :
    o.base T k = T k := by
  simp only [base, at_k, if_neg kept, Option.none_or]

/-- What a key reads depends on what the overlay says about that key only. -/
theorem base_congr {o' : Overlay κ ν τ} (pending : o.pending k = o'.pending k)
    (gone : (o.cleared = true ∨ k ∈ o.dropped) ↔ (o'.cleared = true ∨ k ∈ o'.dropped)) :
    o.base T k = o'.base T k := by
  cases at_k : o.pending k with
  | some v => rw [base_of_pending at_k, base_of_pending (pending ▸ at_k)]
  | none =>
      have at_k' : o'.pending k = none := pending ▸ at_k
      by_cases lost : o.cleared = true ∨ k ∈ o.dropped
      · rw [base_of_gone at_k lost, base_of_gone at_k' (gone.mp lost)]
      · rw [base_of_untouched at_k lost, base_of_untouched at_k' fun h => lost (gone.mpr h)]

theorem base_put [DecidableEq κ] (v : ν) :
    (o.put k v).base T = Function.update (o.base T) k (some v) := by
  funext j
  by_cases same : j = k
  · subst same
    rw [Function.update_self]
    exact base_of_pending (Function.update_self ..)
  · rw [Function.update_of_ne same]
    exact base_congr (Function.update_of_ne same ..) Iff.rfl

theorem base_drop [DecidableEq κ] :
    (o.drop k).base T = Function.update (o.base T) k none := by
  funext j
  by_cases same : j = k
  · subst same
    rw [Function.update_self]
    exact base_of_gone (Function.update_self ..) (.inr (Set.mem_insert ..))
  · rw [Function.update_of_ne same]
    refine base_congr (Function.update_of_ne same ..) ?_
    simp only [drop, Set.mem_insert_iff, same, false_or]

end base

section meaning

variable {sem : τ → (κ → Option ν) → Except ε (κ → Option ν)} {o : Overlay κ ν τ}
variable {T : κ → Option ν} {k : κ}

@[simp] theorem meaning_empty : (empty : Overlay κ ν τ).meaning sem T = .ok T := by
  simp only [meaning, empty, runOps_nil, Except.ok.injEq]
  funext k
  exact base_of_untouched rfl (by simp)

theorem meaning_clear : o.clear.meaning sem T = .ok fun _ => none := by
  simp only [meaning, clear, empty, runOps_nil, Except.ok.injEq]
  funext k
  exact base_of_gone rfl (.inl rfl)

theorem meaning_put [DecidableEq κ] (kept : o.Kept sem) (free : k ∉ o.sticky) (v : ν) :
    (o.put k v).meaning sem T = (o.meaning sem T).map fun T' => Function.update T' k (some v) := by
  rw [meaning, base_put]
  exact (Confined.runOps kept).update free _ _

theorem meaning_drop [DecidableEq κ] (kept : o.Kept sem) (free : k ∉ o.sticky) :
    (o.drop k).meaning sem T = (o.meaning sem T).map fun T' => Function.update T' k none := by
  rw [meaning, base_drop]
  exact (Confined.runOps kept).update free _ _

/-- Under a pending value there is nothing left to lose. -/
theorem meaning_doom {v : ν} (pending : o.pending k = some v) :
    (o.doom k).meaning sem T = o.meaning sem T := by
  have same : (o.doom k).base T = o.base T := by
    funext j
    by_cases at_k : j = k
    · subst at_k
      rw [base_of_pending pending]
      exact base_of_pending (o := o.doom j) pending
    · refine base_congr rfl ?_
      simp only [doom, Set.mem_insert_iff, at_k, false_or]
  rw [meaning, same]
  rfl

theorem meaning_defer (op : τ) (F : Set κ) :
    (o.defer op F).meaning sem T = (o.meaning sem T).bind (sem op) := by
  change runOps sem (o.tail ++ [op]) (o.base T) = _
  rw [runOps_append, meaning]
  cases runOps sem o.tail (o.base T) with
  | error e => rfl
  | ok T' =>
      change (sem op T').bind .ok = sem op T'
      cases sem op T' <;> rfl

/-- A key the tail does not touch reads as the pending values left it. -/
theorem meaning_of_free (kept : o.Kept sem) {T' : κ → Option ν}
    (means : o.meaning sem T = .ok T') (free : k ∉ o.sticky) : T' k = o.base T k :=
  (Confined.runOps kept).unchanged means free

/-- A write after the overlay writes what the overlay means. -/
theorem meaning_write [DecidableEq κ] (kept : o.Kept sem) {T' : κ → Option ν}
    (means : o.meaning sem T = .ok T') {v : ν} {op : τ}
    (does : sem op T' = .ok (Function.update T' k (some v))) :
    (o.write k v op).meaning sem T = .ok (Function.update T' k (some v)) := by
  by_cases held : k ∈ o.sticky
  · rw [write, if_pos held, meaning_defer, means]
    exact does
  · rw [write, if_neg held]
    have landed := meaning_put kept held (T := T) v
    rw [means] at landed
    exact landed

/-- A write that always succeeds follows the overlay, whatever it means. -/
theorem meaning_write_map [DecidableEq κ] (kept : o.Kept sem) {v : ν} {op : τ}
    (does : ∀ T', sem op T' = .ok (Function.update T' k (some v))) :
    (o.write k v op).meaning sem T =
      (o.meaning sem T).map fun T' => Function.update T' k (some v) := by
  by_cases held : k ∈ o.sticky
  · rw [write, if_pos held, meaning_defer]
    cases o.meaning sem T with
    | error e => rfl
    | ok T' => exact does T'
  · rw [write, if_neg held]
    exact meaning_put kept held v

theorem meaning_erase_map [DecidableEq κ] (kept : o.Kept sem) {op : τ}
    (does : ∀ T', sem op T' = .ok (Function.update T' k none)) :
    (o.erase k op).meaning sem T = (o.meaning sem T).map fun T' => Function.update T' k none := by
  by_cases held : k ∈ o.sticky
  · rw [erase, if_pos held, meaning_defer]
    cases o.meaning sem T with
    | error e => rfl
    | ok T' => exact does T'
  · rw [erase, if_neg held]
    exact meaning_drop kept held

theorem meaning_erase [DecidableEq κ] (kept : o.Kept sem) {T' : κ → Option ν}
    (means : o.meaning sem T = .ok T') {op : τ}
    (does : sem op T' = .ok (Function.update T' k none)) :
    (o.erase k op).meaning sem T = .ok (Function.update T' k none) := by
  by_cases held : k ∈ o.sticky
  · rw [erase, if_pos held, meaning_defer, means]
    exact does
  · rw [erase, if_neg held]
    have landed := meaning_drop kept held (T := T)
    rw [means] at landed
    exact landed

end meaning

/-- The sticky keys are the keys the tail names. -/
def Named (keys : τ → Set κ) (o : Overlay κ ν τ) : Prop :=
  ∀ k, k ∈ o.sticky ↔ ∃ op ∈ o.tail, k ∈ keys op

section Named

variable {keys : τ → Set κ} {o : Overlay κ ν τ} {k : κ}

/-- Operations confined to the keys they name stay within the sticky ones. -/
theorem Named.kept {sem : τ → (κ → Option ν) → Except ε (κ → Option ν)} (named : o.Named keys)
    (confined : ∀ op, Confined (keys op) (sem op)) : o.Kept sem := by
  intro op mem
  exact (confined op).mono fun k own => (named k).mpr ⟨op, mem, own⟩

theorem Named.empty : (Overlay.empty : Overlay κ ν τ).Named keys := by
  intro k
  simp [Overlay.empty]

theorem Named.clear : o.clear.Named keys := by
  intro k
  simp [Overlay.clear, Overlay.empty]

theorem Named.defer (named : o.Named keys) {op : τ} {F : Set κ} (own : F = keys op) :
    (o.defer op F).Named keys := by
  intro k
  simp only [Overlay.defer, stick, Set.mem_union, List.mem_append, List.mem_singleton, own,
    named k]
  constructor
  · rintro (new | ⟨op', mem, old⟩)
    · exact ⟨op, .inr rfl, new⟩
    · exact ⟨op', .inl mem, old⟩
  · rintro ⟨op', mem | rfl, held⟩
    · exact .inr ⟨op', mem, held⟩
    · exact .inl held

theorem Named.write [DecidableEq κ] (named : o.Named keys) {v : ν} {op : τ}
    (own : {k} = keys op) : (o.write k v op).Named keys := by
  unfold Overlay.write
  split
  · exact named.defer own
  · exact named

theorem Named.erase [DecidableEq κ] (named : o.Named keys) {op : τ} (own : {k} = keys op) :
    (o.erase k op).Named keys := by
  unfold Overlay.erase
  split
  · exact named.defer own
  · exact named

end Named

/-- The keys the overlay says anything about. -/
def touched (o : Overlay κ ν τ) : Set κ := {k | o.pending k ≠ none} ∪ o.dropped ∪ o.sticky

section touched

variable {o : Overlay κ ν τ} {k : κ}

@[simp] theorem touched_empty : (empty : Overlay κ ν τ).touched = ∅ := by
  simp [touched, empty]

@[simp] theorem touched_clear : o.clear.touched = ∅ := by
  simp [touched, clear, empty]

theorem touched_defer (op : τ) (F : Set κ) : (o.defer op F).touched = F ∪ o.touched := by
  simp only [touched, defer, stick]
  rw [← Set.union_assoc, ← Set.union_assoc, Set.union_comm F, Set.union_assoc]

theorem touched_write [DecidableEq κ] (v : ν) (op : τ) :
    (o.write k v op).touched = insert k o.touched := by
  unfold write
  split
  · exact touched_defer op {k}
  · ext j
    by_cases same : j = k
    · simp [touched, put, same]
    · simp [touched, put, same]

theorem touched_erase [DecidableEq κ] (op : τ) :
    (o.erase k op).touched = insert k o.touched := by
  unfold erase
  split
  · exact touched_defer op {k}
  · ext j
    by_cases same : j = k
    · simp [touched, drop, same]
    · simp [touched, drop, same]

end touched

end Overlay

end Apitap.Foundation
