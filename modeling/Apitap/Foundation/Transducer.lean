import Mathlib.Logic.Basic
import Mathlib.Data.List.Basic

/-!
# Transducers

A transducer reads symbols one at a time and emits at most one result for each. What it
emits over a cut input is what it emits over the parts, each from the state the part
before left. A reader with bounded room blocks where a symbol comes in a state that is
full.
-/

namespace Apitap.Foundation

structure Transducer (σ α β : Type) where
  step : σ → α → σ × Option β

namespace Transducer

variable {σ α β : Type} (T : Transducer σ α β)

/-- The state after a word. -/
def state (s : σ) : List α → σ
  | [] => s
  | a :: w => state (T.step s a).1 w

/-- What is emitted over a word. -/
def emits (s : σ) : List α → List β
  | [] => []
  | a :: w => (T.step s a).2.toList ++ emits (T.step s a).1 w

/-- A symbol comes in a full state. -/
def Blocks (full : σ → Prop) (s : σ) : List α → Prop
  | [] => False
  | a :: w => full s ∨ Blocks full (T.step s a).1 w

instance (full : σ → Prop) [DecidablePred full] (s : σ) (w : List α) :
    Decidable (T.Blocks full s w) := by
  induction w generalizing s with
  | nil => exact isFalse id
  | cons a w ih =>
      have := ih (T.step s a).1
      exact inferInstanceAs (Decidable (full s ∨ T.Blocks full (T.step s a).1 w))

variable {T} {s s' : σ} {u w : List α} {full : σ → Prop}

theorem state_append : T.state s (u ++ w) = T.state (T.state s u) w := by
  induction u generalizing s with
  | nil => rfl
  | cons a u ih => exact ih

theorem emits_append : T.emits s (u ++ w) = T.emits s u ++ T.emits (T.state s u) w := by
  induction u generalizing s with
  | nil => rfl
  | cons a u ih =>
      rw [List.cons_append, emits, ih, emits, List.append_assoc]
      rfl

theorem blocks_append :
    T.Blocks full s (u ++ w) ↔ T.Blocks full s u ∨ T.Blocks full (T.state s u) w := by
  induction u generalizing s with
  | nil => exact (false_or _).to_iff.symm
  | cons a u ih =>
      rw [List.cons_append, Blocks, ih, Blocks, or_assoc]
      rfl

/-- Where it blocks. -/
theorem blocks_iff : T.Blocks full s w ↔ ∃ u a v, w = u ++ a :: v ∧ full (T.state s u) := by
  induction w generalizing s with
  | nil => exact ⟨False.elim, fun ⟨u, a, v, is, _⟩ => nomatch (List.append_eq_nil_iff.mp is.symm).2⟩
  | cons a w ih =>
      rw [Blocks, ih]
      constructor
      · rintro (here | ⟨u, b, v, rfl, later⟩)
        · exact ⟨[], a, w, rfl, here⟩
        · exact ⟨a :: u, b, v, rfl, later⟩
      · rintro ⟨u, b, v, is, at_⟩
        cases u with
        | nil => exact .inl at_
        | cons c u =>
            obtain ⟨rfl, rfl⟩ := List.cons.inj is
            exact .inr ⟨u, b, v, rfl, at_⟩

end Transducer

end Apitap.Foundation
