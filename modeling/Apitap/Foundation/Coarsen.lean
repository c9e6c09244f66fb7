import Apitap.Foundation.Overlay

/-!
# Overlays through a coarser key

A reader may take several keys for one: it sees an overlay through a map of the keys.
While no two keys it takes for one have a pending value, what it sees is an overlay of
its own, and grows as the finer one grows, as long as a write is not filed under a key
that it takes for a sticky one.
-/

namespace Apitap.Foundation

variable {κ ω ν ε τ : Type*}

namespace Overlay

/-- `O` is `o` seen through `f`. -/
structure Along (f : κ → ω) (o : Overlay κ ν τ) (O : Overlay ω ν τ) : Prop where
  cleared : O.cleared = o.cleared
  dropped : O.dropped = f '' o.dropped
  sticky : O.sticky = f '' o.sticky
  tail : O.tail = o.tail
  pending : ∀ x v, O.pending x = some v ↔ ∃ k, f k = x ∧ o.pending k = some v

/-- Filed under `k`, a write is not taken for one at another key. -/
structure Alone (f : κ → ω) (o : Overlay κ ν τ) (k : κ) : Prop where
  apart : k ∉ o.sticky → ∀ j ∈ o.sticky, f j ≠ f k
  single : k ∉ o.sticky → ∀ j, j ≠ k → f j = f k → o.pending j = none

namespace Along

variable {f : κ → ω} {o : Overlay κ ν τ} {O : Overlay ω ν τ} {k : κ} {v : ν} {op : τ}

theorem empty : Along f (empty : Overlay κ ν τ) Overlay.empty where
  cleared := rfl
  dropped := (Set.image_empty f).symm
  sticky := (Set.image_empty f).symm
  tail := rfl
  pending := fun _ _ => ⟨nofun, fun ⟨_, _, none_⟩ => nomatch none_⟩

theorem refl (o : Overlay κ ν τ) : Along id o o where
  cleared := rfl
  dropped := (Set.image_id o.dropped).symm
  sticky := (Set.image_id o.sticky).symm
  tail := rfl
  pending := fun x _ => ⟨fun held => ⟨x, rfl, held⟩, fun ⟨_, same, held⟩ => same ▸ held⟩

theorem clear : Along f o.clear O.clear where
  cleared := rfl
  dropped := (Set.image_empty f).symm
  sticky := (Set.image_empty f).symm
  tail := rfl
  pending := fun _ _ => ⟨nofun, fun ⟨_, _, none_⟩ => nomatch none_⟩

theorem defer (along : Along f o O) (op : τ) (F : Set κ) :
    Along f (o.defer op F) (O.defer op (f '' F)) where
  cleared := along.cleared
  dropped := along.dropped
  sticky := by
    change f '' F ∪ O.sticky = f '' (F ∪ o.sticky)
    rw [along.sticky, Set.image_union]
  tail := congrArg (· ++ [op]) along.tail
  pending := along.pending

theorem mem_sticky (along : Along f o O) (alone : Alone f o k) : f k ∈ O.sticky ↔ k ∈ o.sticky := by
  rw [along.sticky]
  constructor
  · rintro ⟨j, held, same⟩
    by_contra free
    exact alone.apart free j held same
  · exact fun held => ⟨k, held, rfl⟩

variable [DecidableEq κ] [DecidableEq ω]

theorem put (along : Along f o O) (single : ∀ j, j ≠ k → f j = f k → o.pending j = none) :
    Along f (o.put k v) (O.put (f k) v) where
  cleared := along.cleared
  dropped := along.dropped
  sticky := along.sticky
  tail := along.tail
  pending := by
    intro x w
    change Function.update O.pending (f k) (some v) x = some w ↔
      ∃ j, f j = x ∧ Function.update o.pending k (some v) j = some w
    by_cases at_ : x = f k
    · subst at_
      rw [Function.update_self]
      constructor
      · intro is
        exact ⟨k, rfl, by rw [Function.update_self, is]⟩
      · rintro ⟨j, same, is⟩
        by_cases own : j = k
        · rwa [own, Function.update_self] at is
        · rw [Function.update_of_ne own, single j own same] at is
          cases is
    · rw [Function.update_of_ne at_, along.pending]
      refine exists_congr fun j => and_congr_right fun is => ?_
      rw [Function.update_of_ne]
      rintro rfl
      exact at_ is.symm

theorem drop (along : Along f o O) (single : ∀ j, j ≠ k → f j = f k → o.pending j = none) :
    Along f (o.drop k) (O.drop (f k)) where
  cleared := along.cleared
  dropped := by
    change insert (f k) O.dropped = f '' insert k o.dropped
    rw [along.dropped, Set.image_insert_eq]
  sticky := along.sticky
  tail := along.tail
  pending := by
    intro x w
    change Function.update O.pending (f k) none x = some w ↔
      ∃ j, f j = x ∧ Function.update o.pending k none j = some w
    by_cases at_ : x = f k
    · subst at_
      rw [Function.update_self]
      constructor
      · nofun
      · rintro ⟨j, same, is⟩
        by_cases own : j = k
        · rw [own, Function.update_self] at is
          cases is
        · rw [Function.update_of_ne own, single j own same] at is
          cases is
    · rw [Function.update_of_ne at_, along.pending]
      refine exists_congr fun j => and_congr_right fun is => ?_
      rw [Function.update_of_ne]
      rintro rfl
      exact at_ is.symm

theorem write (along : Along f o O) (alone : Alone f o k) (v : ν) (op : τ) :
    Along f (o.write k v op) (O.write (f k) v op) := by
  unfold Overlay.write
  by_cases held : k ∈ o.sticky
  · rw [if_pos held, if_pos ((along.mem_sticky alone).mpr held), ← Set.image_singleton]
    exact along.defer op {k}
  · rw [if_neg held, if_neg fun there => held ((along.mem_sticky alone).mp there)]
    exact along.put (alone.single held)

theorem erase (along : Along f o O) (alone : Alone f o k) (op : τ) :
    Along f (o.erase k op) (O.erase (f k) op) := by
  unfold Overlay.erase
  by_cases held : k ∈ o.sticky
  · rw [if_pos held, if_pos ((along.mem_sticky alone).mpr held), ← Set.image_singleton]
    exact along.defer op {k}
  · rw [if_neg held, if_neg fun there => held ((along.mem_sticky alone).mp there)]
    exact along.drop (alone.single held)

end Along

/-- What is pending at a key that is not sticky is what the overlay means there. -/
theorem meaning_of_pending {sem : τ → (κ → Option ν) → Except ε (κ → Option ν)} {o : Overlay κ ν τ}
    {T T' : κ → Option ν} {k : κ} {v : ν} (kept : o.Kept sem) (means : o.meaning sem T = .ok T')
    (free : k ∉ o.sticky) (pending : o.pending k = some v) : T' k = some v := by
  rw [meaning_of_free kept means free, base_of_pending pending]

end Overlay

end Apitap.Foundation
