import Mathlib.Data.List.MinMax

/-!
# Bags of versioned records

A bag keeps every record ever written; a key shows the value of its newest one. When a
record's value is what some history gives its key at its version, the order in which
the records came, and how often, does not matter: two records of one key and version
say the same, and once every change up to a moment has a record at or after it, the bag
shows the history at that moment.
-/

namespace Apitap.Foundation

structure Version (κ ν : Type*) where
  key : κ
  ver : ℕ
  value : ν
deriving DecidableEq

variable {κ ν : Type*}

/-- The value of every record is the history's at its version. -/
def Faithful (history : ℕ → κ → ν) (bag : List (Version κ ν)) : Prop :=
  ∀ r ∈ bag, r.value = history r.ver r.key

/-- Every change up to `w` has a record at or after it. -/
def Covered (history : ℕ → κ → ν) (bag : List (Version κ ν)) (w : ℕ) : Prop :=
  ∀ t < w, ∀ k, history (t + 1) k ≠ history t k → ∃ r ∈ bag, r.key = k ∧ t < r.ver

section newest

variable [DecidableEq κ] {bag : List (Version κ ν)} {k : κ} {r : Version κ ν}

/-- A record of the key with the greatest version. -/
def newest (bag : List (Version κ ν)) (k : κ) : Option (Version κ ν) :=
  (bag.filter fun r => r.key = k).argmax Version.ver

theorem newest_eq_some (is : newest bag k = some r) :
    r ∈ bag ∧ r.key = k ∧ ∀ r' ∈ bag, r'.key = k → r'.ver ≤ r.ver := by
  have top : r ∈ (bag.filter fun r => r.key = k).argmax Version.ver := is
  obtain ⟨there, own⟩ := List.mem_filter.mp (List.argmax_mem top)
  refine ⟨there, of_decide_eq_true own, fun r' there' own' => ?_⟩
  exact List.le_of_mem_argmax (List.mem_filter.mpr ⟨there', decide_eq_true own'⟩) top

theorem newest_eq_none (is : newest bag k = none) : ∀ r ∈ bag, r.key ≠ k := by
  intro r there own
  have empty := List.argmax_eq_none.mp is
  have listed : r ∈ bag.filter fun r => r.key = k :=
    List.mem_filter.mpr ⟨there, decide_eq_true own⟩
  rw [empty] at listed
  nomatch listed

end newest

section

variable {history : ℕ → κ → ν} {bag bag' : List (Version κ ν)} {a b w : ℕ} {k : κ}

theorem Faithful.cons {r : Version κ ν} (faithful : Faithful history bag)
    (is : r.value = history r.ver r.key) : Faithful history (r :: bag) :=
  List.forall_mem_cons.mpr ⟨is, faithful⟩

/-- Two records of one key and version say the same. -/
theorem Faithful.tie (faithful : Faithful history bag) {r r' : Version κ ν} (there : r ∈ bag)
    (there' : r' ∈ bag) (key : r.key = r'.key) (ver : r.ver = r'.ver) : r.value = r'.value := by
  rw [faithful r there, faithful r' there', key, ver]

theorem Covered.subset (covered : Covered history bag w) (subset : bag ⊆ bag') :
    Covered history bag' w := by
  intro t before k changed
  obtain ⟨r, there, own⟩ := covered t before k changed
  exact ⟨r, subset there, own⟩

theorem Covered.mono (covered : Covered history bag w) (le : a ≤ w) : Covered history bag a :=
  fun t before => covered t (Nat.lt_of_lt_of_le before le)

/-- Records at `b` for what changed from `a` to `b` extend the cover. -/
theorem Covered.extend (covered : Covered history bag a)
    (here : ∀ t, a ≤ t → t < b → ∀ k, history (t + 1) k ≠ history t k →
      ∃ r ∈ bag, r.key = k ∧ r.ver = b) : Covered history bag b := by
  intro t before k changed
  obtain early | late := Nat.lt_or_ge t a
  · exact covered t early k changed
  · obtain ⟨r, there, own, ver⟩ := here t late before k changed
    exact ⟨r, there, own, ver ▸ before⟩

/-- Nothing changed since a moment that no record came after. -/
theorem Covered.still (covered : Covered history bag w) (le : a ≤ w)
    (none : ∀ r ∈ bag, r.key = k → r.ver ≤ a) : history w k = history a k := by
  induction w, le using Nat.le_induction with
  | base => rfl
  | succ n le ih =>
      rw [← ih (covered.mono (Nat.le_succ n))]
      by_contra changed
      obtain ⟨r, there, own, after⟩ := covered n (Nat.lt_succ_self n) k changed
      exact absurd (none r there own) (by omega)

/-- The bag shows the history at a moment that no record is past. -/
theorem newest_of_covered [DecidableEq κ] (faithful : Faithful history bag)
    (covered : Covered history bag w) (past : ∀ r ∈ bag, r.ver ≤ w) {hidden : ν}
    (start : ∀ k, (∀ r ∈ bag, r.key ≠ k) → history 0 k = hidden) (k : κ) :
    (newest bag k).elim hidden Version.value = history w k := by
  cases is : newest bag k with
  | none =>
      have absent := newest_eq_none is
      rw [Option.elim_none, ← start k absent]
      exact (covered.still (Nat.zero_le w) fun r there own => absurd own (absent r there)).symm
  | some r =>
      obtain ⟨there, own, top⟩ := newest_eq_some is
      rw [Option.elim_some, faithful r there, own]
      exact (covered.still (past r there) top).symm

end

end Apitap.Foundation
