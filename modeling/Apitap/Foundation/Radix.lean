import Mathlib.Algebra.Order.Ring.Nat
import Mathlib.Data.List.Induction
import Mathlib.Tactic.Ring

/-!
# Numbers by their digits

A number in a base, written with its most significant digit first and in a fixed number
of places: what the digits denote, the digits of a number, and the two against each other.
-/

namespace Apitap.Foundation

namespace Radix

/-- The number digits denote. -/
def value (b : Nat) (ds : List Nat) : Nat := ds.foldl (fun n d => n * b + d) 0

/-- The last `w` digits of a number. -/
def digits (b : Nat) : Nat → Nat → List Nat
  | 0, _ => []
  | w + 1, n => digits b w (n / b) ++ [n % b]

variable {b w n : Nat} {u v ds : List Nat}

@[simp] theorem value_nil : value b [] = 0 := rfl

theorem foldl_eq (n : Nat) (ds : List Nat) :
    ds.foldl (fun n d => n * b + d) n = n * b ^ ds.length + value b ds := by
  induction ds generalizing n with
  | nil => simp [value]
  | cons d ds ih =>
      have tail : value b (d :: ds) = (0 * b + d) * b ^ ds.length + value b ds := ih _
      rw [List.foldl_cons, ih, List.length_cons, tail]
      ring

theorem value_append : value b (u ++ v) = value b u * b ^ v.length + value b v := by
  rw [value, List.foldl_append, foldl_eq]
  rfl

theorem value_cons {d : Nat} : value b (d :: ds) = d * b ^ ds.length + value b ds := by
  rw [value, List.foldl_cons, foldl_eq, Nat.zero_mul, Nat.zero_add]

@[simp] theorem value_singleton {d : Nat} : value b [d] = d := by simp [value]

theorem value_lt (within : ∀ d ∈ ds, d < b) : value b ds < b ^ ds.length := by
  induction ds with
  | nil => simp
  | cons d ds ih =>
      have rest := ih fun e e_mem => within e (List.mem_cons_of_mem _ e_mem)
      have first : d + 1 ≤ b := within d List.mem_cons_self
      calc value b (d :: ds) = d * b ^ ds.length + value b ds := value_cons
        _ < d * b ^ ds.length + b ^ ds.length := by omega
        _ = (d + 1) * b ^ ds.length := by ring
        _ ≤ b * b ^ ds.length := Nat.mul_le_mul_right _ first
        _ = b ^ (d :: ds).length := by rw [List.length_cons, pow_succ']

@[simp] theorem length_digits : (digits b w n).length = w := by
  induction w generalizing n with
  | zero => rfl
  | succ w ih => rw [digits, List.length_append, ih, List.length_singleton]

theorem digits_lt (base : 0 < b) : ∀ d ∈ digits b w n, d < b := by
  induction w generalizing n with
  | zero => intro d d_mem; cases d_mem
  | succ w ih =>
      intro d d_mem
      rw [digits, List.mem_append, List.mem_singleton] at d_mem
      rcases d_mem with front | rfl
      · exact ih d front
      · exact Nat.mod_lt _ base

theorem value_digits : value b (digits b w n) = n % b ^ w := by
  induction w generalizing n with
  | zero => rw [digits, value_nil, pow_zero, Nat.mod_one]
  | succ w ih =>
      rw [digits, value_append, ih, List.length_singleton, pow_one, value_singleton, pow_succ',
        Nat.mod_mul, Nat.mul_comm, Nat.add_comm]

theorem value_digits_of_lt (fits : n < b ^ w) : value b (digits b w n) = n := by
  rw [value_digits, Nat.mod_eq_of_lt fits]

theorem digits_value (base : 0 < b) (within : ∀ d ∈ ds, d < b) :
    digits b ds.length (value b ds) = ds := by
  induction ds using List.reverseRecOn with
  | nil => rfl
  | append_singleton ds d ih =>
      have last : d < b := within d (by simp)
      rw [List.length_append, List.length_singleton, digits, value_append, List.length_singleton,
        pow_one, value_singleton, Nat.mul_comm, Nat.mul_add_div base, Nat.div_eq_of_lt last,
        Nat.mul_add_mod, Nat.mod_eq_of_lt last, Nat.add_zero,
        ih fun e e_mem => within e (List.mem_append_left _ e_mem)]

/-- Digits are told apart by their number and what they denote. -/
theorem eq_of_value (base : 0 < b) (u_lt : ∀ d ∈ u, d < b) (v_lt : ∀ d ∈ v, d < b)
    (len : u.length = v.length) (same : value b u = value b v) : u = v := by
  rw [← digits_value base u_lt, ← digits_value base v_lt, len, same]

theorem digits_add {k : Nat} : digits b (k + w) n = digits b k (n / b ^ w) ++ digits b w n := by
  induction w generalizing n with
  | zero => rw [Nat.add_zero, pow_zero, Nat.div_one, digits, List.append_nil]
  | succ w ih => rw [← Nat.add_assoc, digits, ih, pow_succ', Nat.div_div_eq_div_mul, digits,
      List.append_assoc]

/-- The first digit and the others. -/
theorem digits_front (base : 0 < b) (fits : n < b ^ (w + 1)) :
    digits b (w + 1) n = n / b ^ w :: digits b w (n % b ^ w) := by
  have rest : n % b ^ w < b ^ w := Nat.mod_lt _ (Nat.pow_pos base)
  refine eq_of_value base (digits_lt base) ?_ (by simp) ?_
  · intro d d_mem
    rcases List.mem_cons.mp d_mem with rfl | d_mem
    · exact Nat.div_lt_of_lt_mul (by rwa [pow_succ] at fits)
    · exact digits_lt base d d_mem
  · rw [value_digits_of_lt fits, value_cons, length_digits, value_digits_of_lt rest,
      Nat.mul_comm, Nat.div_add_mod]

theorem length_flatMap {k : Nat} (gs : List Nat) :
    (gs.flatMap (digits b k)).length = k * gs.length := by
  induction gs with
  | nil => rfl
  | cons g gs ih =>
      rw [List.flatMap_cons, List.length_append, length_digits, ih, List.length_cons, Nat.mul_succ,
        Nat.add_comm]

/-- Digits in groups denote what the groups do in the larger base. -/
theorem value_flatMap {k : Nat} {gs : List Nat} (within : ∀ g ∈ gs, g < b ^ k) :
    value b (gs.flatMap (digits b k)) = value (b ^ k) gs := by
  induction gs with
  | nil => rfl
  | cons g gs ih =>
      rw [List.flatMap_cons, value_append, value_digits_of_lt (within g List.mem_cons_self),
        length_flatMap, pow_mul, ih fun h h_mem => within h (List.mem_cons_of_mem _ h_mem),
          value_cons]

end Radix

end Apitap.Foundation
