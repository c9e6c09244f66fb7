import Mathlib.Order.Basic
import Mathlib.Order.Nat

/-!
# The first best of a list

A search that keeps the best element so far and replaces it only by a strictly better
one ends with the first of the best.
-/

namespace Apitap.Foundation

variable {α : Type}

/-- The better of the best so far and an element, the older on a tie. -/
def keepBest (score : α → Nat) (best : Nat × α) (x : α) : Nat × α :=
  if best.1 < score x then (score x, x) else best

def firstBest (score : α → Nat) (start : Nat × α) (xs : List α) : Nat × α :=
  xs.foldl (keepBest score) start

variable {score : α → Nat}

theorem firstBest_cons (start : Nat × α) (x : α) (xs : List α) :
    firstBest score start (x :: xs) = firstBest score (keepBest score start x) xs := rfl

theorem le_keepBest (best : Nat × α) (x : α) : best.1 ≤ (keepBest score best x).1 := by
  unfold keepBest
  split
  · rename_i better
    exact better.le
  · exact le_rfl

theorem score_le_keepBest (best : Nat × α) (x : α) : score x ≤ (keepBest score best x).1 := by
  unfold keepBest
  split
  · exact le_rfl
  · rename_i worse
    exact Nat.le_of_not_lt worse

theorem le_firstBest (start : Nat × α) (xs : List α) : start.1 ≤ (firstBest score start xs).1 := by
  induction xs generalizing start with
  | nil => exact le_rfl
  | cons x xs ih => exact (le_keepBest start x).trans (ih _)

/-- Nothing scores more. -/
theorem score_le_firstBest (start : Nat × α) {xs : List α} {x : α} (mem : x ∈ xs) :
    score x ≤ (firstBest score start xs).1 := by
  induction xs generalizing start with
  | nil => nomatch mem
  | cons y xs ih =>
      rw [firstBest_cons]
      cases List.mem_cons.mp mem with
      | inl here =>
          rw [here]
          exact (score_le_keepBest start y).trans (le_firstBest _ xs)
      | inr mem => exact ih _ mem

theorem keepBest_of_not_lt {best : Nat × α} {x : α} (worse : ¬best.1 < score x) :
    keepBest score best x = best := if_neg worse

/-- A best no element is better than stays. -/
theorem firstBest_stays {best : Nat × α} {xs : List α}
    (notBetter : ¬best.1 < (firstBest score best xs).1) : firstBest score best xs = best := by
  induction xs generalizing best with
  | nil => rfl
  | cons x xs ih =>
      have grown : score x ≤ (firstBest score best (x :: xs)).1 :=
        (score_le_keepBest best x).trans (le_firstBest _ xs)
      have same : keepBest score best x = best :=
        keepBest_of_not_lt fun strictly => notBetter (strictly.trans_le grown)
      rw [firstBest_cons, same] at notBetter ⊢
      exact ih notBetter

/-- What scores more than the start is the score of an element, and of none before it. -/
theorem firstBest_first {start : Nat × α} {xs : List α}
    (better : start.1 < (firstBest score start xs).1) :
    ∃ before after, xs = before ++ (firstBest score start xs).2 :: after ∧
      (firstBest score start xs).1 = score (firstBest score start xs).2 ∧
      ∀ y ∈ before, score y < (firstBest score start xs).1 := by
  induction xs generalizing start with
  | nil => exact absurd better (Nat.lt_irrefl _)
  | cons x xs ih =>
      rw [firstBest_cons] at better ⊢
      by_cases later : (keepBest score start x).1 < (firstBest score (keepBest score start x) xs).1
      · obtain ⟨before, after, split, scored, below⟩ := ih later
        refine ⟨x :: before, after, by rw [List.cons_append, ← split], scored, fun y mem => ?_⟩
        cases List.mem_cons.mp mem with
        | inl here =>
            rw [here]
            exact (score_le_keepBest start x).trans_lt later
        | inr mem => exact below y mem
      · rw [firstBest_stays later] at better ⊢
        have strictly : start.1 < score x := by
          by_contra worse
          rw [keepBest_of_not_lt worse] at better
          exact Nat.lt_irrefl _ better
        have kept : keepBest score start x = (score x, x) := if_pos strictly
        rw [kept]
        exact ⟨[], xs, rfl, rfl, nofun⟩

end Apitap.Foundation
