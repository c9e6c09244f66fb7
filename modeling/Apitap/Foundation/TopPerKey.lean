import Mathlib.Data.List.Nodup
import Mathlib.Order.Defs.LinearOrder

/-!
# The first record of each key

`topPerKey` sorts records and keeps the first one of each key, as `ORDER BY` with
`LIMIT 1 BY` or a `ROW_NUMBER() = 1` does. Its result does not depend on the order
the records come in, as long as no two records of one key rank the same.
-/

namespace Apitap

variable {α κ : Type} [DecidableEq κ]

/-- The first record of each key that is not among `seen`. -/
def firstPerKey (key : α → κ) (seen : List κ) : List α → List α
  | [] => []
  | a :: as =>
      if key a ∈ seen then firstPerKey key seen as else a :: firstPerKey key (key a :: seen) as

/-- Sort, then keep the first record of each key. -/
def topPerKey (key : α → κ) (before : α → α → Bool) (as : List α) : List α :=
  firstPerKey key [] (as.mergeSort before)

section

variable {key : α → κ} {before : α → α → Bool} {seen : List κ} {as : List α} {a : α}

theorem mem_of_mem_firstPerKey (mem : a ∈ firstPerKey key seen as) : a ∈ as ∧ key a ∉ seen := by
  induction as generalizing seen with
  | nil => nomatch mem
  | cons x xs ih =>
      rw [firstPerKey] at mem
      split at mem
      · exact ⟨.tail x (ih mem).1, (ih mem).2⟩
      · obtain rfl | mem := List.mem_cons.mp mem
        · exact ⟨.head xs, by assumption⟩
        · obtain ⟨there, fresh⟩ := ih mem
          exact ⟨.tail x there, fun old => fresh (.tail (key x) old)⟩

theorem firstPerKey_keys_nodup : ((firstPerKey key seen as).map key).Nodup := by
  induction as generalizing seen with
  | nil => exact .nil
  | cons x xs ih =>
      rw [firstPerKey]
      split
      · exact ih
      · refine List.nodup_cons.mpr ⟨fun mem => ?_, ih⟩
        obtain ⟨y, mem, same⟩ := List.mem_map.mp mem
        exact (mem_of_mem_firstPerKey mem).2 (same ▸ .head seen)

/-- Some record of every key is kept. -/
theorem exists_mem_firstPerKey (mem : a ∈ as) (fresh : key a ∉ seen) :
    ∃ b ∈ firstPerKey key seen as, key b = key a := by
  induction as generalizing seen with
  | nil => nomatch mem
  | cons x xs ih =>
      rw [firstPerKey]
      split
      · rename_i old
        refine ih ?_ fresh
        exact (List.mem_cons.mp mem).resolve_left fun same => fresh (same ▸ old)
      · by_cases same : key x = key a
        · exact ⟨x, .head _, same⟩
        · have later : a ∈ xs := (List.mem_cons.mp mem).resolve_left fun here => same (here ▸ rfl)
          obtain ⟨b, there, key_b⟩ := ih later fun old =>
            (List.mem_cons.mp old).elim (fun here => same here.symm) fresh
          exact ⟨b, .tail x there, key_b⟩

/-- What is kept of a sorted list comes before every record of its key. -/
theorem before_of_mem_firstPerKey (refl : ∀ a, before a a = true)
    (sorted : as.Pairwise fun a b => before a b = true) (mem : a ∈ firstPerKey key seen as) {b : α}
    (there : b ∈ as) (same : key b = key a) : before a b = true := by
  induction sorted generalizing seen with
  | nil => nomatch there
  | @cons x xs first _ ih =>
      rw [firstPerKey] at mem
      split at mem
      · obtain rfl | there := List.mem_cons.mp there
        · exact absurd (same ▸ (by assumption)) (mem_of_mem_firstPerKey mem).2
        · exact ih mem there
      · obtain rfl | mem := List.mem_cons.mp mem
        · obtain rfl | there := List.mem_cons.mp there
          · exact refl b
          · exact first b there
        · obtain rfl | there := List.mem_cons.mp there
          · exact absurd (same ▸ .head seen) (mem_of_mem_firstPerKey mem).2
          · exact ih mem there

theorem topPerKey_keys_nodup : ((topPerKey key before as).map key).Nodup := firstPerKey_keys_nodup

/-- A record is kept exactly when it comes before every record of its key. -/
theorem mem_topPerKey (refl : ∀ a, before a a = true)
    (trans : ∀ a b c, before a b = true → before b c = true → before a c = true)
    (total : ∀ a b, before a b || before b a)
    (distinct : ∀ a ∈ as, ∀ b ∈ as, key a = key b → before a b = true → before b a = true → a = b) :
    a ∈ topPerKey key before as ↔ a ∈ as ∧ ∀ b ∈ as, key b = key a → before a b = true := by
  have sorted := List.pairwise_mergeSort trans total as
  have perm {x : α} : x ∈ as.mergeSort before ↔ x ∈ as := (List.mergeSort_perm as before).mem_iff
  constructor
  · intro mem
    refine ⟨perm.mp (mem_of_mem_firstPerKey mem).1, fun b there same => ?_⟩
    exact before_of_mem_firstPerKey refl sorted mem (perm.mpr there) same
  · rintro ⟨there, first⟩
    have kept : ∃ b ∈ firstPerKey key [] (as.mergeSort before), key b = key a :=
      exists_mem_firstPerKey (perm.mpr there) List.not_mem_nil
    obtain ⟨b, mem, same⟩ := kept
    have here := perm.mp (mem_of_mem_firstPerKey mem).1
    have back := before_of_mem_firstPerKey refl sorted mem (perm.mpr there) same.symm
    rw [distinct a there b here same.symm (first b here same) back]
    exact mem

end

end Apitap
