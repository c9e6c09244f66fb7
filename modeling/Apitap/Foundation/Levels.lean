import Mathlib.Algebra.Order.Ring.Nat
import Mathlib.Data.List.Basic

/-!
# Columns with definition levels

A column of optional cells stored as the values that are there and a level for every cell,
1 where it has a value. Columns stored one after another are the concatenation of both lists.
-/

namespace Apitap.Foundation.Levels

variable {α : Type}

/-- Values and levels. -/
abbrev Stored (α : Type) := List α × List Nat

def shred (cells : List (Option α)) : Stored α :=
  (cells.filterMap id, cells.map fun c => if c.isSome then 1 else 0)

/-- One behind the other. -/
def join (a b : Stored α) : Stored α := (a.1 ++ b.1, a.2 ++ b.2)

/-- All of them, in order. -/
def joined (bs : List (Stored α)) : Stored α := (bs.flatMap Prod.fst, bs.flatMap Prod.snd)

/-- As many values as levels call for. -/
structure Even (b : Stored α) : Prop where
  values : b.1.length = b.2.sum
  levels : ∀ l ∈ b.2, l ≤ 1

theorem shred_append (a b : List (Option α)) : shred (a ++ b) = join (shred a) (shred b) := by
  simp only [shred, join, List.filterMap_append, List.map_append]

@[simp] theorem length_levels (cells : List (Option α)) : (shred cells).2.length = cells.length :=
  List.length_map _

@[simp] theorem join_nil (a : Stored α) : join a ([], []) = a := by simp [join]

theorem join_assoc (a b c : Stored α) : join (join a b) c = join a (join b c) := by
  simp only [join, List.append_assoc]

theorem joined_append (as bs : List (Stored α)) :
    joined (as ++ bs) = join (joined as) (joined bs) := by
  simp only [joined, join, List.flatMap_append]

theorem joined_single (a : Stored α) : joined [a] = a := by simp [joined]

theorem even_nil : Even (([], []) : Stored α) := ⟨rfl, by simp⟩

theorem Even.join {a b : Stored α} (first : Even a) (second : Even b) : Even (join a b) where
  values := by
    rw [Levels.join, List.length_append, List.sum_append, first.values, second.values]
  levels l l_mem := by
    rcases List.mem_append.mp l_mem with earlier | later
    · exact first.levels l earlier
    · exact second.levels l later

theorem even_one (c : Option α) : Even (shred [c]) := by
  cases c with
  | none => exact ⟨rfl, by simp [shred]⟩
  | some v => exact ⟨rfl, by simp [shred]⟩

/-- Without levels there are no values. -/
theorem Even.nil_of_levels {b : Stored α} (even : Even b) (none : b.2 = []) : b = ([], []) := by
  obtain ⟨values, levels⟩ := b
  obtain rfl : levels = [] := none
  have empty : values.length = 0 := even.values
  rw [List.length_eq_zero_iff.mp empty]

/-- As many levels 0 as levels where there are no values. -/
theorem Even.count_zero_iff {b : Stored α} (even : Even b) :
    b.2.count 0 = b.2.length ↔ b.1 = [] := by
  rw [List.count_eq_length, ← List.length_eq_zero_iff, even.values,
    List.sum_eq_zero_iff_forall_eq_nat]
  constructor
  · intro all l l_mem
    exact (all l l_mem).symm
  · intro all l l_mem
    exact (all l l_mem).symm

end Apitap.Foundation.Levels
