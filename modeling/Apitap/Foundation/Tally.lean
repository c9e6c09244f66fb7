import Mathlib.Algebra.Order.Ring.Nat
import Mathlib.Data.List.AList

/-!
# The weight of a map

A measure of the values, summed over a map. What is put in and taken out is weighed alone.
-/

namespace Apitap.Foundation

namespace Tally

variable {α β : Type} (f : β → Nat)

/-- What the values of a map weigh together. -/
def tally (s : AList fun _ : α => β) : Nat := (s.entries.map fun e => f e.2).sum

@[simp] theorem tally_empty : tally f (∅ : AList fun _ : α => β) = 0 := rfl

variable [DecidableEq α] {s : AList fun _ : α => β} {a : α} {b : β}

theorem sum_kerase (l : List (Σ _ : α, β)) (a : α) :
    ((List.kerase a l).map fun e => f e.2).sum + (List.dlookup a l).elim 0 f =
      (l.map fun e => f e.2).sum := by
  induction l with
  | nil => rfl
  | cons e l ih =>
      obtain ⟨k, b⟩ := e
      by_cases here : a = k
      · have kept : List.kerase a (⟨k, b⟩ :: l) = l := List.kerase_cons_eq here
        have found : List.dlookup a (⟨k, b⟩ :: l) = some b := by
          subst here
          exact List.dlookup_cons_eq _ _ _
        rw [kept, found, List.map_cons, List.sum_cons]
        exact Nat.add_comm _ _
      · have kept : List.kerase a (⟨k, b⟩ :: l) = ⟨k, b⟩ :: List.kerase a l :=
          List.kerase_cons_ne here
        have skipped : List.dlookup a (⟨k, b⟩ :: l) = List.dlookup a l :=
          List.dlookup_cons_ne _ _ here
        rw [kept, skipped, List.map_cons, List.map_cons, List.sum_cons, List.sum_cons]
        omega

/-- What is taken out weighs no more. -/
theorem tally_erase : tally f (s.erase a) + (s.lookup a).elim 0 f = tally f s :=
  sum_kerase f s.entries a

/-- A value takes the place of the one its key had. -/
theorem tally_insert :
    tally f (s.insert a b) + (s.lookup a).elim 0 f = tally f s + f b := by
  have rest := sum_kerase f s.entries a
  rw [tally, AList.entries_insert, List.map_cons, List.sum_cons]
  change f b + ((List.kerase a s.entries).map fun e => f e.2).sum +
    (List.dlookup a s.entries).elim 0 f = tally f s + f b
  rw [tally]
  omega

theorem le_tally (there : s.lookup a = some b) : f b ≤ tally f s := by
  have rest := tally_erase f (s := s) (a := a)
  rw [there, Option.elim_some] at rest
  omega

end Tally

end Apitap.Foundation
