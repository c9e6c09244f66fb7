import Mathlib.Order.Basic
import Mathlib.Data.Nat.Init

/-!
# Loading a table while it changes

A table is read key by key while its source goes on, so the copy is a state the
source need never have had. Windows of the source's log are then laid over it. Each
window settles its keys: a key the window may have changed holds the source's value at
the window's end, and any other key holds what it did. Once the windows reach past the
last read, the copy is the source.
-/

namespace Apitap.Foundation

variable {κ ν : Type*}

/-- Every key as it stood at some moment from `p` to `q`. -/
def LoadedBetween (history : ℕ → κ → ν) (p q : ℕ) (T : κ → ν) : Prop :=
  ∀ k, ∃ t, p ≤ t ∧ t ≤ q ∧ T k = history t k

/-- The key's value does not change from `m` to `n`. -/
def Still (history : ℕ → κ → ν) (m n : ℕ) (k : κ) : Prop :=
  ∀ t, m ≤ t → t ≤ n → history t k = history n k

/-- From `m` to `n`, each key is brought to the source's value or left alone, and it is
left alone only where the source left it alone. -/
def Settles (history : ℕ → κ → ν) (m n : ℕ) (T T' : κ → ν) : Prop :=
  ∀ k, T' k = history n k ∨ T' k = T k ∧ Still history m n k

section

variable {history : ℕ → κ → ν} {m n p q r : ℕ} {T T' T'' : κ → ν} {k : κ}

theorem LoadedBetween.mono (loaded : LoadedBetween history m n T) (first : p ≤ m) (last : n ≤ q) :
    LoadedBetween history p q T := by
  intro k
  obtain ⟨t, after, before, is⟩ := loaded k
  exact ⟨t, Nat.le_trans first after, Nat.le_trans before last, is⟩

theorem Still.refl : Still history m m k := by
  intro t after before
  rw [Nat.le_antisymm before after]

theorem Still.trans (first : Still history m n k) (second : Still history n r k) (le : n ≤ r) :
    Still history m r k := by
  intro t after before
  obtain early | late := Nat.le_total t n
  · rw [first t after early]
    exact second n (Nat.le_refl n) le
  · exact second t late before

theorem Settles.refl : Settles history m m T T := fun _ => .inr ⟨rfl, .refl⟩

theorem Settles.trans (first : Settles history m n T T') (second : Settles history n r T' T'')
    (le : n ≤ r) : Settles history m r T T'' := by
  intro k
  obtain done | ⟨kept, still⟩ := second k
  · exact .inl done
  · obtain done | ⟨kept', still'⟩ := first k
    · refine .inl ?_
      rw [kept, done]
      exact still n (Nat.le_refl n) le
    · exact .inr ⟨kept.trans kept', still'.trans still le⟩

/-- A copy that was settled past its last read is the source. -/
theorem LoadedBetween.converges (loaded : LoadedBetween history p q T)
    (settled : Settles history p n T T') (past : q ≤ n) : T' = history n := by
  funext k
  obtain done | ⟨kept, still⟩ := settled k
  · exact done
  · obtain ⟨t, after, before, is⟩ := loaded k
    rw [kept, is]
    exact still t after (Nat.le_trans before past)

end

end Apitap.Foundation
