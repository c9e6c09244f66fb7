import Mathlib.Data.List.Basic

/-!
# The order of texts

Words are compared symbol by symbol, a front before the longer word. Words that start with
parts of one length compare by these parts first; words that end in one symbol below all
others compare as they do without it.
-/

namespace Apitap.Foundation.TextOrder

variable {α : Type} [Ord α] {a b r s : List α}

theorem compare_append (same : a.length = b.length) :
    compare (a ++ r) (b ++ s) = (compare a b).then (compare r s) := by
  induction a generalizing b with
  | nil =>
      obtain rfl : b = [] := List.length_eq_zero_iff.mp same.symm
      rfl
  | cons x a ih =>
      cases b with
      | nil => cases same
      | cons y b =>
          rw [List.cons_append, List.cons_append, List.compare_cons_cons, List.compare_cons_cons,
            ih (Nat.succ.inj same), Ordering.then_assoc]

variable {c : α}

/-- A symbol is below all of a word. -/
def Below (c : α) (a : List α) : Prop := ∀ x ∈ a, compare c x = .lt ∧ compare x c = .gt

theorem compare_terminated (below : Below c a) (below' : Below c b) (self : compare c c = .eq) :
    compare (a ++ c :: r) (b ++ c :: s) = (compare a b).then (compare r s) := by
  induction a generalizing b with
  | nil =>
      cases b with
      | nil =>
          rw [List.nil_append, List.nil_append, List.compare_cons_cons, self]
          rfl
      | cons y b =>
          rw [List.nil_append, List.cons_append, List.compare_cons_cons,
            (below' y List.mem_cons_self).1]
          rfl
  | cons x a ih =>
      cases b with
      | nil =>
          rw [List.nil_append, List.cons_append, List.compare_cons_cons,
            (below x List.mem_cons_self).2]
          rfl
      | cons y b =>
          rw [List.cons_append, List.cons_append, List.compare_cons_cons, List.compare_cons_cons,
            ih (fun x x_mem => below x (List.mem_cons_of_mem _ x_mem))
              (fun y y_mem => below' y (List.mem_cons_of_mem _ y_mem)), Ordering.then_assoc]

/-- A word and one that goes on behind a part as long as it, in a symbol above `c`. -/
theorem compare_shorter {u v : List α} (same : a.length = u.length) (nonempty : v ≠ [])
    (below : Below c v) :
    compare (a ++ c :: r) (u ++ v ++ s) = (compare a u).then .lt := by
  obtain ⟨y, v, rfl⟩ := List.exists_cons_of_ne_nil nonempty
  rw [List.append_assoc, compare_append same, List.cons_append, List.compare_cons_cons,
    (below y List.mem_cons_self).1]
  rfl

theorem compare_longer {u v : List α} (same : u.length = b.length) (nonempty : v ≠ [])
    (below : Below c v) :
    compare (u ++ v ++ r) (b ++ c :: s) = (compare u b).then .gt := by
  obtain ⟨y, v, rfl⟩ := List.exists_cons_of_ne_nil nonempty
  rw [List.append_assoc, compare_append same, List.cons_append, List.compare_cons_cons,
    (below y List.mem_cons_self).2]
  rfl

end Apitap.Foundation.TextOrder
