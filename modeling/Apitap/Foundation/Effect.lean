import Mathlib.Logic.Relation

/-!
# Programs that call an environment

A program is what it returns, or a call and what it does with each answer. The
environment moves on its own between calls, answers a call in any of the ways it
may, and can change state without the answer saying so. `Meets` is the assertion
that every state on the way satisfies an invariant and every result a
postcondition; its rules follow the program's structure.
-/

namespace Apitap

/-- A program whose calls are answered from outside. -/
inductive Prog (Op Ans : Type) (α : Type) where
  | pure (a : α)
  | call (op : Op) (k : Ans → Prog Op Ans α)

namespace Prog

variable {Op Ans α β : Type}

def bind (p : Prog Op Ans α) (f : α → Prog Op Ans β) : Prog Op Ans β :=
  match p with
  | .pure a => f a
  | .call op k => .call op fun ans => (k ans).bind f

instance : Monad (Prog Op Ans) where
  pure := .pure
  bind := bind

/-- A call on its own. -/
def ask (op : Op) : Prog Op Ans Ans := .call op .pure

end Prog

/-- What a state does on its own, and how it may answer a call. -/
structure Env (σ Op Ans : Type) where
  drift : σ → σ → Prop
  serve : σ → Op → Ans → σ → Prop

namespace Env

variable {σ Op Ans α β : Type} (E : Env σ Op Ans)

/-- Any number of moves of the environment. -/
abbrev Drifts : σ → σ → Prop := Relation.ReflTransGen E.drift

/-- One move of the environment, or one call answered. -/
inductive Moves : σ × Prog Op Ans α → σ × Prog Op Ans α → Prop
  | drift {s s' : σ} {p : Prog Op Ans α} (moves : E.drift s s') : Moves (s, p) (s', p)
  | serve {s s' : σ} {op : Op} {k : Ans → Prog Op Ans α} {ans : Ans}
      (served : E.serve s op ans s') : Moves (s, .call op k) (s', k ans)

abbrev Reaches : σ × Prog Op Ans α → σ × Prog Op Ans α → Prop := Relation.ReflTransGen E.Moves

/-- From this state on every state satisfies `I`, and every result `Q`. -/
def Meets (I : σ → Prop) (Q : α → σ → Prop) : Prog Op Ans α → σ → Prop
  | .pure a, s => ∀ s', E.Drifts s s' → I s' ∧ Q a s'
  | .call op k, s => ∀ s', E.Drifts s s' →
      I s' ∧ ∀ ans s'', E.serve s' op ans s'' → Meets I Q (k ans) s''

variable {E} {I : σ → Prop} {Q : α → σ → Prop} {s s' : σ}

/-- What every drift keeps, every number of them keeps. -/
theorem Drifts.keeps {P : σ → Prop} (stable : ∀ s s', P s → E.drift s s' → P s')
    (drifts : E.Drifts s s') (here : P s) : P s' := by
  induction drifts with
  | refl => exact here
  | tail _ step ih => exact stable _ _ ih step

theorem Meets.drifts {p : Prog Op Ans α} (meets : E.Meets I Q p s) (drifts : E.Drifts s s') :
    E.Meets I Q p s' := by
  cases p with
  | pure a => exact fun t further => meets t (drifts.trans further)
  | call op k => exact fun t further => meets t (drifts.trans further)

theorem Meets.now {p : Prog Op Ans α} (meets : E.Meets I Q p s) : I s := by
  cases p with
  | pure a => exact (meets s .refl).1
  | call op k => exact (meets s .refl).1

/-- A program that meets its assertion keeps the invariant wherever a run gets to,
and its postcondition once it returns. -/
theorem Meets.reaches {p p' : Prog Op Ans α} (meets : E.Meets I Q p s)
    (run : E.Reaches (s, p) (s', p')) :
    I s' ∧ ∀ a, p' = .pure a → ∀ t, E.Drifts s' t → Q a t := by
  have kept : E.Meets I Q p' s' := by
    refine Relation.ReflTransGen.head_induction_on
      (motive := fun at_ _ => E.Meets I Q at_.2 at_.1 → E.Meets I Q p' s') run id
      (fun step _ ih here => ih ?_) meets
    cases step with
    | drift moves => exact here.drifts (.single moves)
    | serve served => exact (here _ .refl).2 _ _ served
  refine ⟨kept.now, fun a result t further => ?_⟩
  subst result
  exact (kept t further).2

/-! ## Rules -/

theorem Meets.pure {P : σ → Prop} {a : α} (stable : ∀ s s', P s → E.drift s s' → P s') (here : P s)
    (inv : ∀ s, P s → I s) (post : ∀ s, P s → Q a s) : E.Meets I Q (.pure a) s :=
  fun _ drifts => ⟨inv _ (drifts.keeps stable here), post _ (drifts.keeps stable here)⟩

theorem Meets.call {P : σ → Prop} {op : Op} {k : Ans → Prog Op Ans α}
    (stable : ∀ s s', P s → E.drift s s' → P s') (here : P s) (inv : ∀ s, P s → I s)
    (next : ∀ s ans s', P s → E.serve s op ans s' → E.Meets I Q (k ans) s') :
    E.Meets I Q (.call op k) s :=
  fun s' drifts => ⟨inv s' (drifts.keeps stable here),
    fun ans s'' served => next s' ans s'' (drifts.keeps stable here) served⟩

theorem Meets.mono {Q' : α → σ → Prop} {p : Prog Op Ans α} (meets : E.Meets I Q p s)
    (post : ∀ a s, Q a s → Q' a s) : E.Meets I Q' p s := by
  induction p generalizing s with
  | pure a => exact fun t drifts => ⟨(meets t drifts).1, post a t (meets t drifts).2⟩
  | call op k ih => exact fun t drifts =>
      ⟨(meets t drifts).1, fun ans t' served => ih ans ((meets t drifts).2 ans t' served)⟩

theorem Meets.bind {R : β → σ → Prop} {p : Prog Op Ans α} {f : α → Prog Op Ans β}
    (first : E.Meets I Q p s) (next : ∀ a s, Q a s → E.Meets I R (f a) s) :
    E.Meets I R (p.bind f) s := by
  induction p generalizing s with
  | pure a => exact next a s (first s .refl).2
  | call op k ih => exact fun t drifts =>
      ⟨(first t drifts).1, fun ans t' served => ih ans ((first t drifts).2 ans t' served)⟩

/-- A run of a program is one of what goes on with it. -/
theorem reaches_bind {p p' : Prog Op Ans α} (run : E.Reaches (s, p) (s', p'))
    (f : α → Prog Op Ans β) : E.Reaches (s, p.bind f) (s', p'.bind f) := by
  refine run.lift (fun at_ => (at_.1, at_.2.bind f)) fun _ _ step => ?_
  cases step with
  | drift moves => exact .drift moves
  | serve served => exact .serve served

end Env

end Apitap
