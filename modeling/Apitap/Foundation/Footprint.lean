import Mathlib.Data.Set.Piecewise
import Mathlib.Data.Set.Function

/-!
# Steps confined to a set of keys

A table is a partial map from keys to values, and a step may fail. A step is
confined to `F` when it reads and writes the keys in `F` only: on two tables
that agree there it fails alike, and succeeds with results that agree there and
leave everything else as it was. Confinement is closed under sequencing, and a
confined step commutes with any write outside its set.
-/

namespace Apitap.Foundation

variable {κ ν ε τ : Type*}

section writes

variable {F : Set κ} {T U : κ → Option ν}

theorem eqOn_update [DecidableEq κ] (same : Set.EqOn T U F) (k : κ) (v : Option ν) :
    Set.EqOn (Function.update T k v) (Function.update U k v) F := by
  intro j inside
  by_cases at_k : j = k
  · rw [at_k, Function.update_self, Function.update_self]
  · rw [Function.update_of_ne at_k, Function.update_of_ne at_k, same inside]

open Classical in
/-- A write inside the set, seen from a table that agrees with another there
and with the outcome elsewhere. -/
theorem piecewise_update_of [DecidableEq κ] {V : κ → Option ν} (same : Set.EqOn T V F)
    (frame : Set.EqOn V U Fᶜ) {k : κ} (inside : k ∈ F) (v : Option ν) :
    F.piecewise (Function.update T k v) U = Function.update V k v := by
  funext j
  by_cases inF : j ∈ F
  · rw [Set.piecewise_eq_of_mem _ _ _ inF]
    exact eqOn_update same k v inF
  · have ne : j ≠ k := by
      rintro rfl
      exact inF inside
    rw [Set.piecewise_eq_of_notMem _ _ _ inF, Function.update_of_ne ne, frame inF]

open Classical in
theorem piecewise_update [DecidableEq κ] (same : Set.EqOn T U F) {k : κ} (inside : k ∈ F)
    (v : Option ν) :
    F.piecewise (Function.update T k v) U = Function.update U k v :=
  piecewise_update_of same (fun _ _ => rfl) inside v

open Classical in
theorem piecewise_self (same : Set.EqOn T U F) : F.piecewise T U = U := by
  funext j
  by_cases inF : j ∈ F
  · rw [Set.piecewise_eq_of_mem _ _ _ inF, same inF]
  · rw [Set.piecewise_eq_of_notMem _ _ _ inF]

end writes

open Classical in
/-- The step reads and writes the keys in `F` only. -/
def Confined (F : Set κ) (step : (κ → Option ν) → Except ε (κ → Option ν)) : Prop :=
  ∀ T U, Set.EqOn T U F → step U = (step T).map fun T' => F.piecewise T' U

namespace Confined

variable {F G : Set κ} {step next : (κ → Option ν) → Except ε (κ → Option ν)}

/-- What the step leaves outside its set is what was there. -/
theorem unchanged (confined : Confined F step) {T T' : κ → Option ν} (ran : step T = .ok T')
    {k : κ} (outside : k ∉ F) :
    T' k = T k := by
  classical
  have same := confined T T fun _ _ => rfl
  rw [ran] at same
  simp only [Except.map, Except.ok.injEq] at same
  rw [same, Set.piecewise_eq_of_notMem _ _ _ outside]

/-- Tables that agree on the set give the same outcome there. -/
theorem agree (confined : Confined F step) {T T' U : κ → Option ν} (ran : step T = .ok T')
    (same : Set.EqOn T U F) :
    ∃ U', step U = .ok U' ∧ Set.EqOn T' U' F ∧ Set.EqOn U' U Fᶜ := by
  classical
  refine ⟨F.piecewise T' U, ?_, ?_, ?_⟩
  · rw [confined T U same, ran]
    congr
  · intro k inside
    exact (Set.piecewise_eq_of_mem _ _ _ inside).symm
  · intro k outside
    exact Set.piecewise_eq_of_notMem _ _ _ outside

theorem mono (confined : Confined F step) (subset : F ⊆ G) : Confined G step := by
  classical
  intro T U same
  rw [confined T U (same.mono subset)]
  cases ran : step T with
  | error e => rfl
  | ok T' =>
      simp only [Except.map, Except.ok.injEq]
      funext k
      by_cases inG : k ∈ G
      · rw [Set.piecewise_eq_of_mem _ _ _ inG]
        by_cases inF : k ∈ F
        · rw [Set.piecewise_eq_of_mem _ _ _ inF]
        · rw [Set.piecewise_eq_of_notMem _ _ _ inF, confined.unchanged ran inF, same inG]
      · have outside : k ∉ F := fun inF => inG (subset inF)
        rw [Set.piecewise_eq_of_notMem _ _ _ inG, Set.piecewise_eq_of_notMem _ _ _ outside]

/-- A write outside the set commutes with the step. -/
theorem update [DecidableEq κ] (confined : Confined F step) {k : κ} (outside : k ∉ F)
    (T : κ → Option ν) (v : Option ν) :
    step (Function.update T k v) = (step T).map fun T' => Function.update T' k v := by
  classical
  have same : Set.EqOn T (Function.update T k v) F := by
    intro j inside
    rw [Function.update_of_ne]
    rintro rfl
    exact outside inside
  rw [confined T _ same]
  cases ran : step T with
  | error e => rfl
  | ok T' =>
      simp only [Except.map, Except.ok.injEq]
      funext j
      by_cases inside : j ∈ F
      · have ne : j ≠ k := by
          rintro rfl
          exact outside inside
        rw [Set.piecewise_eq_of_mem _ _ _ inside, Function.update_of_ne ne]
      · rw [Set.piecewise_eq_of_notMem _ _ _ inside]
        by_cases eq : j = k
        · subst eq
          rw [Function.update_self, Function.update_self]
        · rw [Function.update_of_ne eq, Function.update_of_ne eq, confined.unchanged ran inside]

theorem pure : Confined F (Except.ok : (κ → Option ν) → Except ε (κ → Option ν)) := by
  classical
  intro T U same
  simp only [Except.map, piecewise_self same]

theorem bind (first : Confined F step) (second : Confined F next) :
    Confined F fun T => (step T).bind next := by
  classical
  intro T U same
  change (step U).bind next = ((step T).bind next).map _
  cases ran : step T with
  | error e =>
      rw [first T U same, ran]
      rfl
  | ok T' =>
      obtain ⟨U', ranU, inside, outside⟩ := first.agree ran same
      rw [ranU]
      change next U' = (next T').map _
      rw [second T' U' inside]
      congr 1
      funext T'' k
      by_cases inF : k ∈ F
      · rw [Set.piecewise_eq_of_mem _ _ _ inF, Set.piecewise_eq_of_mem _ _ _ inF]
      · rw [Set.piecewise_eq_of_notMem _ _ _ inF, Set.piecewise_eq_of_notMem _ _ _ inF]
        exact outside inF

end Confined

/-- Run operations in order, each from where the last one ended. -/
def runOps (sem : τ → (κ → Option ν) → Except ε (κ → Option ν)) :
    List τ → (κ → Option ν) → Except ε (κ → Option ν)
  | [], T => .ok T
  | op :: ops, T => (sem op T).bind (runOps sem ops)

section runOps

variable {sem : τ → (κ → Option ν) → Except ε (κ → Option ν)}

@[simp] theorem runOps_nil (T : κ → Option ν) : runOps sem [] T = .ok T := rfl

@[simp] theorem runOps_cons (op : τ) (ops : List τ) (T : κ → Option ν) :
    runOps sem (op :: ops) T = (sem op T).bind (runOps sem ops) := rfl

theorem runOps_append (ops more : List τ) (T : κ → Option ν) :
    runOps sem (ops ++ more) T = (runOps sem ops T).bind (runOps sem more) := by
  induction ops generalizing T with
  | nil => rfl
  | cons op ops ih =>
      simp only [List.cons_append, runOps_cons]
      cases sem op T with
      | error e => rfl
      | ok T' => exact ih T'

theorem Confined.runOps {F : Set κ} {ops : List τ}
    (confined : ∀ op ∈ ops, Confined F (sem op)) : Confined F (runOps sem ops) := by
  induction ops with
  | nil => exact .pure
  | cons op ops ih =>
      have rest : ∀ op ∈ ops, Confined F (sem op) := fun op mem => confined op (.tail _ mem)
      exact (confined op (.head _)).bind (ih rest)

end runOps

end Apitap.Foundation
