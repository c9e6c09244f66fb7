import Mathlib.Logic.Function.Basic
import Apitap.Foundation.Effect

/-!
# Programs side by side

Any number of programs share one state, one call at a time, in any order; a program
that is never picked again has died there. For one of them the others are part of the
environment. What every program keeps, and relies on the others to keep, holds in every
state reached.
-/

namespace Apitap

namespace Prog

variable {Op Ans α β : Type} {C : Op → Prop}

/-- Every call the program makes is of this kind. -/
inductive Only (C : Op → Prop) : Prog Op Ans α → Prop
  | pure (a : α) : Only C (.pure a)
  | call {op : Op} {k : Ans → Prog Op Ans α} (kind : C op) (next : ∀ ans, Only C (k ans)) :
      Only C (.call op k)

theorem Only.bind {p : Prog Op Ans α} {f : α → Prog Op Ans β} (first : Only C p)
    (next : ∀ a, Only C (f a)) : Only C (p.bind f) := by
  induction first with
  | pure a => exact next a
  | call kind _ ih => exact .call kind ih

theorem Only.mono {C' : Op → Prop} {p : Prog Op Ans α} (only : Only C p)
    (wider : ∀ op, C op → C' op) : Only C' p := by
  induction only with
  | pure a => exact .pure a
  | call kind _ ih => exact .call (wider _ kind) ih

end Prog

/-- A program keeps what its kind of calls, and the environment, keep. -/
theorem Env.Meets.frame {σ Op Ans α : Type} {E : Env σ Op Ans} {I P : σ → Prop} {C : Op → Prop}
    {p : Prog Op Ans α} {s : σ} (only : p.Only C) (stable : ∀ s s', P s → E.drift s s' → P s')
    (kept : ∀ s op ans s', C op → P s → E.serve s op ans s' → P s') (inv : ∀ s, P s → I s)
    (here : P s) : E.Meets I (fun _ s => P s) p s := by
  induction only generalizing s with
  | pure a => exact .pure stable here inv fun _ here => here
  | call kind _ ih =>
      exact .call stable here inv fun s ans s' here served =>
        ih ans (kept s _ ans s' kind here served)

/-- A state that several programs call, each under its own name. -/
structure Shared (ι σ Op Ans : Type) where
  drift : σ → σ → Prop
  serve : ι → σ → Op → Ans → σ → Prop

namespace Shared

variable {ι σ Op Ans α : Type} [DecidableEq ι] (S : Shared ι σ Op Ans)

/-- What the others may do, when each makes calls of its kind only and all keep `G`. -/
def around (K : ι → Op → Prop) (G : σ → Prop) (i : ι) : Env σ Op Ans where
  drift s s' := (S.drift s s' ∨ ∃ j, j ≠ i ∧ ∃ op ans, K j op ∧ S.serve j s op ans s') ∧ G s'
  serve := S.serve i

/-- One program's call is answered, or the state moves on its own. -/
inductive Moves : σ × (ι → Prog Op Ans α) → σ × (ι → Prog Op Ans α) → Prop
  | drift {s s' : σ} {p : ι → Prog Op Ans α} (moves : S.drift s s') : Moves (s, p) (s', p)
  | serve {s s' : σ} {p : ι → Prog Op Ans α} {i : ι} {op : Op} {k : Ans → Prog Op Ans α} {ans : Ans}
      (asks : p i = .call op k) (served : S.serve i s op ans s') :
      Moves (s, p) (s', Function.update p i (k ans))

abbrev Reaches : σ × (ι → Prog Op Ans α) → σ × (ι → Prog Op Ans α) → Prop :=
  Relation.ReflTransGen S.Moves

variable {S} {K : ι → Op → Prop} {G : σ → Prop} {Q : ι → α → σ → Prop} {s s' : σ}
  {p p' : ι → Prog Op Ans α}

/-- Programs that keep `G` when all the others do, keep it together. -/
theorem Reaches.meets (run : S.Reaches (s, p) (s', p')) (kinds : ∀ i, (p i).Only (K i))
    (here : G s) (alone : ∀ s s', G s → S.drift s s' → G s')
    (meets : ∀ i, (S.around K G i).Meets G (Q i) (p i) s) :
    G s' ∧ ∀ i, (S.around K G i).Meets G (Q i) (p' i) s' := by
  refine Relation.ReflTransGen.head_induction_on
    (motive := fun at_ _ => (∀ i, (at_.2 i).Only (K i)) → G at_.1 →
      (∀ i, (S.around K G i).Meets G (Q i) (at_.2 i) at_.1) →
      G s' ∧ ∀ i, (S.around K G i).Meets G (Q i) (p' i) s') run (fun _ here meets => ⟨here, meets⟩)
    (fun step _ ih kinds here meets => ?_) kinds here meets
  cases step with
  | drift moves =>
      have after := alone _ _ here moves
      exact ih kinds after fun i => (meets i).drifts (.single ⟨.inl moves, after⟩)
  | @serve s t p i op k ans asks served =>
      have mine : (S.around K G i).Meets G (Q i) (p i) s := meets i
      have kind : (p i).Only (K i) := kinds i
      rw [asks] at mine kind
      have next := (mine s .refl).2 ans t served
      cases kind with
      | call own rest =>
      refine ih (fun j => ?_) next.now fun j => ?_
      · show (Function.update p i (k ans) j).Only (K j)
        by_cases same : j = i
        · subst same
          rw [Function.update_self]
          exact rest ans
        · rw [Function.update_of_ne same]
          exact kinds j
      · show (S.around K G j).Meets G (Q j) (Function.update p i (k ans) j) t
        by_cases same : j = i
        · subst same
          rw [Function.update_self]
          exact next
        · rw [Function.update_of_ne same]
          refine (meets j).drifts (.single ⟨.inr ⟨i, ?_, op, ans, own, served⟩, next.now⟩)
          exact fun is => same is.symm

/-- One of the programs, while the others do nothing. -/
theorem Reaches.alone {i : ι} {q q' : Prog Op Ans α}
    (run : (⟨S.drift, S.serve i⟩ : Env σ Op Ans).Reaches (s, q) (s', q')) :
    S.Reaches (s, Function.update p i q) (s', Function.update p i q') := by
  refine Relation.ReflTransGen.head_induction_on
    (motive := fun at_ _ => S.Reaches (at_.1, Function.update p i at_.2)
      (s', Function.update p i q'))
    run .refl fun step _ ih => ?_
  cases step with
  | drift moves => exact .head (.drift moves) ih
  | serve served =>
      refine .head (.serve (Function.update_self ..) served) ?_
      rw [Function.update_idem]
      exact ih

/-- One of the programs from where it is, while the others do nothing. -/
theorem Reaches.process {i : ι} {q q' : Prog Op Ans α} (at_ : p i = q)
    (run : (⟨S.drift, S.serve i⟩ : Env σ Op Ans).Reaches (s, q) (s', q')) :
    S.Reaches (s, p) (s', Function.update p i q') := by
  subst at_
  have run := Reaches.alone (p := p) run
  rwa [Function.update_eq_self] at run

end Shared

end Apitap
