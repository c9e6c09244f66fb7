import Mathlib.Algebra.Order.Ring.Int

/-!
# Arithmetic in a fixed width

A checked operation gives its result where it fits and nothing where it does not; an
unchecked one that does not fit is a panic. A call stops with an error it returns or with a
panic. A sequence of checked steps that only grow a number fits where its last value does.
-/

namespace Apitap.Foundation

/-- How a call ends without a value: an error it returns, or a panic. -/
inductive Stop (ε : Type) where
  | err (e : ε)
  | panic
deriving DecidableEq, Repr

namespace Stop

variable {ε α : Type}

/-- An absent value as an error. -/
def orErr (e : ε) : Option α → Except (Stop ε) α
  | some a => .ok a
  | none => .error (.err e)

/-- An absent value as a panic. -/
def orPanic : Option α → Except (Stop ε) α
  | some a => .ok a
  | none => .error .panic

@[simp] theorem orErr_some {e : ε} {a : α} : orErr e (some a) = .ok a := rfl
@[simp] theorem orErr_none {e : ε} : orErr e (none : Option α) = .error (.err e) := rfl
@[simp] theorem orPanic_some {a : α} : orPanic (some a) = (.ok a : Except (Stop ε) α) := rfl
@[simp] theorem orPanic_none : orPanic (none : Option α) = (.error .panic : Except (Stop ε) α) :=
  rfl

theorem ok_bind {β : Type} (a : α) (k : α → Except ε β) : (Except.ok a).bind k = k a := rfl
theorem error_bind {β : Type} (e : ε) (k : α → Except ε β) :
    (Except.error e).bind k = .error e := rfl

end Stop

/-- The integers of a signed width. -/
def Fits (w : Nat) (z : Int) : Prop := -2 ^ (w - 1) ≤ z ∧ z < 2 ^ (w - 1)

instance (w : Nat) (z : Int) : Decidable (Fits w z) := inferInstanceAs (Decidable (_ ∧ _))

/-- A signed result, where it fits. -/
def checked (w : Nat) (z : Int) : Option Int := if Fits w z then some z else none

/-- An unsigned result, where it fits. -/
def checkedNat (w n : Nat) : Option Nat := if n < 2 ^ w then some n else none

variable {w n : Nat} {a b : Int}

theorem checked_of_fits (fits : Fits w a) : checked w a = some a := if_pos fits

theorem checked_eq_none (beyond : ¬ Fits w a) : checked w a = none := if_neg beyond

theorem checkedNat_of_lt (lt : n < 2 ^ w) : checkedNat w n = some n := if_pos lt

theorem fits_of_nonneg (nonneg : 0 ≤ a) (lt : a < 2 ^ (w - 1)) : Fits w a := by
  have bound : (0 : Int) ≤ 2 ^ (w - 1) := pow_nonneg (by decide) _
  exact ⟨(neg_nonpos_of_nonneg bound).trans nonneg, lt⟩

theorem fits_natCast : Fits w (n : Int) ↔ n < 2 ^ (w - 1) := by
  constructor
  · intro fits
    exact_mod_cast fits.2
  · intro lt
    exact fits_of_nonneg (Int.natCast_nonneg n) (by exact_mod_cast lt)

theorem Fits.of_le (fits : Fits w b) (nonneg : 0 ≤ a) (le : a ≤ b) : Fits w a :=
  fits_of_nonneg nonneg (lt_of_le_of_lt le fits.2)

theorem Fits.neg (fits : Fits w a) (nonneg : 0 ≤ a) : Fits w (-a) :=
  ⟨neg_le_neg fits.2.le, lt_of_le_of_lt (neg_le_self nonneg) fits.2⟩

/-- A step that only grows a number is the only one that may not fit. -/
theorem checked_bind {f : Int → Option Int} (nonneg : 0 ≤ a) (le : a ≤ b)
    (step : Fits w a → f a = checked w b) : (checked w a).bind f = checked w b := by
  by_cases fits : Fits w a
  · rw [checked_of_fits fits]
    exact step fits
  · rw [checked_eq_none fits, checked_eq_none fun larger => fits (larger.of_le nonneg le)]
    rfl

theorem checkedNat_bind {m : Nat} {f : Nat → Option Nat} (le : n ≤ m)
    (step : n < 2 ^ w → f n = checkedNat w m) : (checkedNat w n).bind f = checkedNat w m := by
  by_cases lt : n < 2 ^ w
  · rw [checkedNat_of_lt lt]
    exact step lt
  · rw [checkedNat, if_neg lt, checkedNat, if_neg fun less => lt (le.trans_lt less)]
    rfl

end Apitap.Foundation
