import Mathlib.Data.Set.Lattice

/-!
# Debts that later steps pay

A step may run up debts, named by a key, and pay those of the steps before it. A
sequence is settled when each of its steps' debts is paid by a later step. What is still
due is carried along the sequence, so that a step at the end can be told apart from the
steps it pays for.
-/

namespace Apitap.Foundation

variable {σ α κ : Type*} (next : σ → α → σ) (owes : σ → α → Set κ) (pays : α → Set κ)

/-- Each step's debts are paid by a step behind it. -/
def Settled : σ → List α → Prop
  | _, [] => True
  | s, a :: as => (∀ k ∈ owes s a, ∃ b ∈ as, k ∈ pays b) ∧ Settled (next s a) as

/-- What is due after a sequence, with `D` due before it. -/
def due : σ → Set κ → List α → Set κ
  | _, D, [] => D
  | s, D, a :: as => due (next s a) (D \ pays a ∪ owes s a) as

section due

variable {next owes pays} {s : σ} {D E : Set κ} {as bs : List α} {a : α} {k : κ}

theorem due_append : due next owes pays s D (as ++ bs) =
    due next owes pays (as.foldl next s) (due next owes pays s D as) bs := by
  induction as generalizing s D with
  | nil => rfl
  | cons a as ih => exact ih

theorem due_concat : due next owes pays s D (as ++ [a]) =
    due next owes pays s D as \ pays a ∪ owes (as.foldl next s) a := due_append

/-- What was due before is due until it is paid. -/
theorem mem_due : k ∈ due next owes pays s D as ↔
    (k ∈ D ∧ ∀ b ∈ as, k ∉ pays b) ∨ k ∈ due next owes pays s ∅ as := by
  induction as generalizing s D with
  | nil => simp [due]
  | cons a as ih =>
      rw [due, due, ih, ih (D := ∅ \ pays a ∪ owes s a)]
      simp only [Set.mem_union, Set.mem_sdiff, Set.mem_empty_iff_false, List.forall_mem_cons]
      tauto

/-- A sequence is settled when nothing is due after it. -/
theorem settled_iff : Settled next owes pays s as ↔ due next owes pays s ∅ as = ∅ := by
  rw [Set.eq_empty_iff_forall_notMem]
  induction as generalizing s with
  | nil => simp [Settled, due]
  | cons a as ih =>
      simp only [Settled, ih, due]
      constructor
      · rintro ⟨paid, rest⟩ k still
        rcases mem_due.mp still with ⟨owed, unpaid⟩ | later
        · obtain ⟨b, mem, pays_⟩ := paid k (owed.resolve_left fun before => before.1)
          exact unpaid b mem pays_
        · exact rest k later
      · intro clear
        refine ⟨fun k owed => ?_, fun k later => clear k (mem_due.mpr (.inr later))⟩
        by_contra unpaid
        push Not at unpaid
        exact clear k (mem_due.mpr (.inl ⟨.inr owed, unpaid⟩))

/-- Only what some step owes is ever due. -/
theorem due_subset (bound : ∀ a ∈ as, ∀ s, owes s a ⊆ E) (start : D ⊆ E) :
    due next owes pays s D as ⊆ E := by
  induction as generalizing s D with
  | nil => exact start
  | cons a as ih =>
      refine ih (fun b mem => bound b (.tail _ mem)) (Set.union_subset ?_ (bound a (.head _) s))
      exact Set.sdiff_subset.trans start

/-- Two starts that the steps cannot tell apart leave the same due. -/
theorem due_congr {R : σ → σ → Prop} {s' : σ}
    (same : ∀ a ∈ as, ∀ s s', R s s' → owes s a = owes s' a ∧ R (next s a) (next s' a))
    (start : R s s') : due next owes pays s D as = due next owes pays s' D as := by
  induction as generalizing s s' D with
  | nil => rfl
  | cons a as ih =>
      obtain ⟨alike, after⟩ := same a (.head _) s s' start
      rw [due, due, alike]
      exact ih (fun b mem => same b (.tail _ mem)) after

end due

end Apitap.Foundation
