import Mathlib.Data.List.Basic

/-!
# Results

The value or the error of a call, of one call behind another, and of a call for each member of a
list up to the first that fails.
-/

namespace Apitap.Foundation

variable {ε α β γ : Type} {e : ε}

theorem bind_eq_ok {x : Except ε α} {f : α → Except ε β} {r : β} :
    x.bind f = .ok r ↔ ∃ a, x = .ok a ∧ f a = .ok r := by
  cases x <;> simp [Except.bind]

theorem bind_eq_error {x : Except ε α} {f : α → Except ε β} :
    x.bind f = .error e ↔ x = .error e ∨ ∃ a, x = .ok a ∧ f a = .error e := by
  cases x <;> simp [Except.bind]

theorem map_eq_ok {x : Except ε α} {f : α → β} {r : β} :
    x.map f = .ok r ↔ ∃ a, x = .ok a ∧ f a = r := by
  cases x <;> simp [Except.map]

theorem map_eq_error {x : Except ε α} {f : α → β} : x.map f = .error e ↔ x = .error e := by
  cases x <;> simp [Except.map]

theorem optionMap_ok {x : Except ε (Option α)} {f : α → β} {r : β} :
    x.map (Option.map f) = .ok (some r) ↔ ∃ a, x = .ok (some a) ∧ f a = r := by
  cases x with
  | error e => simp [Except.map]
  | ok found => cases found <;> simp [Except.map]

section mapM

variable {f : α → Except ε β} {x : α} {xs zs : List α} {ys : List β}

theorem mapM_cons (x : α) (xs : List α) :
    (x :: xs).mapM f = (f x).bind fun y => (xs.mapM f).map (y :: ·) := by
  rw [List.mapM_cons]
  rfl

theorem mapM_cons_ok :
    (x :: xs).mapM f = .ok ys ↔ ∃ y more, f x = .ok y ∧ xs.mapM f = .ok more ∧ ys = y :: more := by
  rw [mapM_cons]
  constructor
  · intro is
    obtain ⟨y, first, is⟩ := bind_eq_ok.mp is
    obtain ⟨more, rest, is⟩ := map_eq_ok.mp is
    exact ⟨y, more, first, rest, is.symm⟩
  · rintro ⟨y, more, first, rest, rfl⟩
    rw [first, rest]
    rfl

theorem mapM_append (xs zs : List α) :
    (xs ++ zs).mapM f = (xs.mapM f).bind fun ys => (zs.mapM f).map fun more => ys ++ more := by
  rw [List.mapM_append]
  rfl

/-- The results stand where what they are of does. -/
theorem mapM_ok (is : xs.mapM f = .ok ys) :
    ys.length = xs.length ∧ ∀ (i : Nat) (x : α), xs[i]? = some x →
      ∃ y, ys[i]? = some y ∧ f x = .ok y := by
  induction xs generalizing ys with
  | nil =>
      cases is
      refine ⟨rfl, ?_⟩
      intro i x none
      cases none
  | cons x xs ih =>
      obtain ⟨y, ys', one, rest, rfl⟩ := mapM_cons_ok.mp is
      obtain ⟨len, all⟩ := ih rest
      refine ⟨congrArg (· + 1) len, ?_⟩
      intro i z mem
      cases i with
      | zero =>
          cases mem
          exact ⟨y, rfl, one⟩
      | succ i => exact all i z mem

theorem mapM_error (is : xs.mapM f = .error e) :
    ∃ (i : Nat) (x : α), xs[i]? = some x ∧ f x = .error e := by
  induction xs with
  | nil => cases is
  | cons x xs ih =>
      rw [mapM_cons] at is
      obtain first | ⟨y, -, is⟩ := bind_eq_error.mp is
      · exact ⟨0, x, rfl, first⟩
      · obtain ⟨i, z, at_, wrong⟩ := ih (map_eq_error.mp is)
        exact ⟨i + 1, z, at_, wrong⟩

/-- In two steps. -/
theorem mapM_bind {g : β → Except ε γ} {rs : List γ} :
    (xs.mapM fun x => (f x).bind g) = .ok rs ↔ ∃ ys, xs.mapM f = .ok ys ∧ ys.mapM g = .ok rs := by
  induction xs generalizing rs with
  | nil =>
      constructor
      · intro given
        exact ⟨[], rfl, given⟩
      · rintro ⟨ys, is, given⟩
        cases is
        exact given
  | cons x xs ih =>
      constructor
      · intro given
        obtain ⟨r, more, first, later, rfl⟩ := mapM_cons_ok.mp given
        obtain ⟨ys, are, rest⟩ := ih.mp later
        obtain ⟨y, one, further⟩ := bind_eq_ok.mp first
        exact ⟨y :: ys, mapM_cons_ok.mpr ⟨y, ys, one, are, rfl⟩,
          mapM_cons_ok.mpr ⟨r, more, further, rest, rfl⟩⟩
      · rintro ⟨ys, are, given⟩
        obtain ⟨y, later, one, rest, rfl⟩ := mapM_cons_ok.mp are
        obtain ⟨r, more, first, further, rfl⟩ := mapM_cons_ok.mp given
        exact mapM_cons_ok.mpr ⟨r, more, bind_eq_ok.mpr ⟨y, one, first⟩,
          ih.mpr ⟨later, rest, further⟩, rfl⟩

end mapM

end Apitap.Foundation
