import Mathlib.Data.List.Basic

/-!
# Input in elements

A reader is in a state and takes an element from the front of a word: so many symbols, the state
behind them and perhaps a value. It says that a word is too short, or refuses it, and what it says
of a word it says of every longer one unless it asked for more. So what is read of a word does
not depend on where reading it paused.
-/

namespace Apitap.Foundation

/-- A reader of elements; what it decides stands for longer words. -/
structure Elements (ε α σ β : Type) where
  next : σ → List α → Except ε (Option (Nat × σ × Option β))
  next_le : ∀ {s b n t r}, next s b = .ok (some (n, t, r)) → 0 < n ∧ n ≤ b.length
  next_append : ∀ {s b r} x, next s b = .ok (some r) → next s (b ++ x) = .ok (some r)
  next_error : ∀ {s b e} x, next s b = .error e → next s (b ++ x) = .error e

namespace Elements

variable {ε α σ β : Type} (E : Elements ε α σ β)

/-- Elements as long as there are whole ones: their values, the state behind them, what is left. -/
def elements : Nat → σ → List α → Except ε (List β × σ × List α)
  | 0, s, b => .ok ([], s, b)
  | fuel + 1, s, b =>
      match E.next s b with
      | .error e => .error e
      | .ok none => .ok ([], s, b)
      | .ok (some (n, t, r)) =>
          (elements fuel t (b.drop n)).map fun (rs, u, rest) => (r.toList ++ rs, u, rest)

/-- Each element takes a symbol at least. -/
def parse (s : σ) (b : List α) : Except ε (List β × σ × List α) := E.elements (b.length + 1) s b

/-- Some elements at the front of a word, with their values, and what is behind them. -/
inductive Reads : σ → List α → List β → σ → List α → Prop where
  | done (s : σ) (b : List α) : Reads s b [] s b
  | more {s t u : σ} {b c : List α} {n : Nat} {r : Option β} {rs : List β}
      (first : E.next s b = .ok (some (n, t, r))) (rest : Reads t (b.drop n) rs u c) :
      Reads s b (r.toList ++ rs) u c

variable {E} {s t u : σ} {b c d x : List α} {n : Nat} {r : Option β} {rs ts : List β} {e : ε}

theorem elements_fuel {f g : Nat} (enough : b.length < f) (also : b.length < g) :
    E.elements f s b = E.elements g s b := by
  induction f generalizing g s b with
  | zero => exact absurd enough (Nat.not_lt_zero _)
  | succ f ih =>
      cases g with
      | zero => exact absurd also (Nat.not_lt_zero _)
      | succ g =>
          rw [elements, elements]
          cases read : E.next s b with
          | error e => rfl
          | ok found =>
              match found, read with
              | none, _ => rfl
              | some (n, t, r), read =>
                  have took := E.next_le read
                  have less : (b.drop n).length < b.length := by
                    rw [List.length_drop]
                    omega
                  simp only
                  rw [ih (g := g) (by omega) (by omega)]

theorem parse_error (read : E.next s b = .error e) : E.parse s b = .error e := by
  rw [parse, elements, read]

theorem parse_none (read : E.next s b = .ok none) : E.parse s b = .ok ([], s, b) := by
  rw [parse, elements, read]

theorem parse_some (read : E.next s b = .ok (some (n, t, r))) :
    E.parse s b = (E.parse t (b.drop n)).map fun (rs, u, rest) => (r.toList ++ rs, u, rest) := by
  have took := E.next_le read
  have less : (b.drop n).length < b.length := by
    rw [List.length_drop]
    omega
  rw [parse, elements, read, parse]
  simp only
  rw [elements_fuel less (Nat.lt_succ_self _)]

namespace Reads

theorem one (first : E.next s b = .ok (some (n, t, r))) : E.Reads s b r.toList t (b.drop n) := by
  have reads := Reads.more first (.done t (b.drop n))
  rwa [List.append_nil] at reads

theorem trans (front : E.Reads s b rs t c) (back : E.Reads t c ts u d) :
    E.Reads s b (rs ++ ts) u d := by
  induction front with
  | done => exact back
  | more first _ ih =>
      rw [List.append_assoc]
      exact .more first (ih back)

/-- Behind a longer word there is more left, and nothing else is different. -/
theorem append (reads : E.Reads s b rs t c) (x : List α) : E.Reads s (b ++ x) rs t (c ++ x) := by
  induction reads with
  | done => exact .done _ _
  | more first _ ih =>
      rw [← List.drop_append_of_le_length (E.next_le first).2] at ih
      exact .more (E.next_append x first) ih

/-- What is read is taken from the front. -/
theorem suffix (reads : E.Reads s b rs t c) : c <:+ b := by
  induction reads with
  | done => exact List.suffix_rfl
  | more _ _ ih => exact ih.trans (List.drop_suffix _ _)

/-- The elements of a word are those at its front, and those behind. -/
theorem parse (reads : E.Reads s b rs t c) :
    E.parse s b = (E.parse t c).map fun (ts, u, rest) => (rs ++ ts, u, rest) := by
  induction reads with
  | done s b => cases E.parse s b <;> rfl
  | @more _ _ u _ c _ _ _ first _ ih =>
      rw [parse_some first, ih]
      cases E.parse u c with
      | error e => rfl
      | ok found => simp only [Except.map, List.append_assoc]

/-- With nothing whole behind them, they are all. -/
theorem parse_eq (reads : E.Reads s b rs t c) (short : E.next t c = .ok none) :
    E.parse s b = .ok (rs, t, c) := by
  rw [reads.parse, parse_none short]
  simp only [Except.map, List.append_nil]

end Reads

/-- The parse reads all there is. -/
theorem reads_of_parse (given : E.parse s b = .ok (rs, t, c)) :
    E.Reads s b rs t c ∧ E.next t c = .ok none := by
  induction len : b.length using Nat.strongRecOn generalizing s b rs with
  | _ len' ih =>
      subst len
      cases read : E.next s b with
      | error e =>
          rw [parse_error read] at given
          cases given
      | ok found =>
          match found, read with
          | none, read =>
              rw [parse_none read] at given
              cases given
              exact ⟨.done _ _, read⟩
          | some (n, u, r), read =>
              have took := E.next_le read
              rw [parse_some read] at given
              cases later : E.parse u (b.drop n) with
              | error e =>
                  rw [later] at given
                  cases given
              | ok found =>
                  obtain ⟨more, v, left⟩ := found
                  rw [later] at given
                  cases given
                  obtain ⟨reads, short⟩ :=
                    ih _ (by rw [List.length_drop]; omega) later rfl
                  exact ⟨.more read reads, short⟩

/-- Elements of a longer word: those of the front, and those of what it left and the rest. -/
theorem parse_append (given : E.parse s b = .ok (rs, t, c)) (x : List α) :
    E.parse s (b ++ x) = (E.parse t (c ++ x)).map fun (ts, u, rest) => (rs ++ ts, u, rest) :=
  ((reads_of_parse given).1.append x).parse

/-! ## Words that are refused -/

section Refused

variable (E) (p : β → Prop)

/-- Somewhere an element is refused, or one is read that is not as it should be. -/
def Refused (s : σ) (b : List α) : Prop :=
  ∃ rs t c, E.Reads s b rs t c ∧ ((∃ e, E.next t c = .error e) ∨ ∃ r ∈ rs, ¬ p r)

/-- All of it is read and as it should be. -/
def Taken (s : σ) (b : List α) (rs : List β) (t : σ) (c : List α) : Prop :=
  E.parse s b = .ok (rs, t, c) ∧ ∀ r ∈ rs, p r

variable {E} {p}

theorem Refused.append (refused : E.Refused p s b) (x : List α) : E.Refused p s (b ++ x) := by
  obtain ⟨rs, t, c, reads, bad⟩ := refused
  refine ⟨rs, t, c ++ x, reads.append x, bad.imp_left ?_⟩
  rintro ⟨e, wrong⟩
  exact ⟨e, E.next_error x wrong⟩

theorem Refused.behind (refused : E.Refused p t c) (reads : E.Reads s b rs t c) :
    E.Refused p s b := by
  obtain ⟨ts, u, d, later, bad⟩ := refused
  refine ⟨rs ++ ts, u, d, reads.trans later, bad.imp_right ?_⟩
  rintro ⟨r, mem, wrong⟩
  exact ⟨r, List.mem_append_right _ mem, wrong⟩

/-- No word is both. -/
theorem Refused.not_taken (refused : E.Refused p s b) : ¬ E.Taken p s b rs t c := by
  rintro ⟨all, each⟩
  obtain ⟨ts, u, d, reads, ⟨e, wrong⟩ | ⟨r, mem, wrong⟩⟩ := refused
  · rw [reads.parse, parse_error wrong] at all
    cases all
  · rw [reads.parse] at all
    cases later : E.parse u d with
    | error e =>
        rw [later] at all
        cases all
    | ok found =>
        rw [later] at all
        cases all
        exact wrong (each r (List.mem_append_left _ mem))

end Refused

end Elements

end Apitap.Foundation
