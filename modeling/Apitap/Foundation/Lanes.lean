import Mathlib.Data.Nat.Bitwise
import Mathlib.Data.List.Basic

/-!
# Bytes side by side in a word

Bytes as one number with the first byte lowest, and the test that finds a zero among them
all at once: taking one from every byte borrows across a byte only where a zero stood below.
-/

namespace Apitap.Foundation

namespace Lanes

/-- The number bytes denote, the first one lowest. -/
def value : List UInt8 → Nat
  | [] => 0
  | b :: bs => b.toNat + 256 * value bs

/-- A one in each of `n` bytes. -/
def ones (n : Nat) : Nat := value (List.replicate n 1)

variable {bs : List UInt8}

theorem value_lt (bs : List UInt8) : value bs < 256 ^ bs.length := by
  induction bs with
  | nil => decide
  | cons b bs ih =>
      have small : b.toNat < 256 := b.toNat_lt
      rw [value, List.length_cons, pow_succ]
      omega

theorem ones_succ (n : Nat) : ones (n + 1) = 1 + 256 * ones n := rfl

theorem ones_lt (n : Nat) : ones n < 256 ^ n := by
  simpa [ones] using value_lt (List.replicate n 1)

/-- A bit above the first byte is a bit of the bytes behind it. -/
theorem testBit_byte {b n : Nat} (small : b < 256) (i : Nat) :
    (b + 256 * n).testBit (i + 8) = n.testBit i := by
  have high := Nat.testBit_two_pow_mul_add n (show b < 2 ^ 8 from small) (i + 8)
  rw [if_neg (by omega), Nat.add_sub_cancel] at high
  rw [← high, Nat.add_comm]

theorem testBit_low {b n i : Nat} (small : b < 256) (low : i < 8) :
    (b + 256 * n).testBit i = b.testBit i := by
  have bits := Nat.testBit_two_pow_mul_add n (show b < 2 ^ 8 from small) i
  rw [if_pos low] at bits
  rw [← bits, Nat.add_comm]

/-- The same byte laid against every byte. -/
theorem value_xor (c : UInt8) (bs : List UInt8) :
    value bs ^^^ value (List.replicate bs.length c) = value (bs.map (· ^^^ c)) := by
  induction bs with
  | nil => exact Nat.xor_self 0
  | cons b bs ih =>
      have front : b.toNat ^^^ c.toNat = (b ^^^ c).toNat := (UInt8.toNat_xor b c).symm
      refine Nat.eq_of_testBit_eq fun i => ?_
      rw [List.length_cons, List.replicate_succ, List.map_cons, value, value, value,
        Nat.testBit_xor]
      rcases Nat.lt_or_ge i 8 with low | high
      · rw [testBit_low b.toNat_lt low, testBit_low c.toNat_lt low,
          testBit_low (b ^^^ c).toNat_lt low, ← front, Nat.testBit_xor]
      · obtain ⟨j, rfl⟩ := Nat.exists_eq_add_of_le' high
        rw [testBit_byte b.toNat_lt, testBit_byte c.toNat_lt,
          testBit_byte (b ^^^ c).toNat_lt, ← ih, Nat.testBit_xor]

/-- With a zero among the bytes, taking a one from each sets the top bit of the lowest zero,
which that byte did not have. -/
theorem exists_borrow (zero : 0 ∈ bs) :
    ∃ j < bs.length, (value bs).testBit (8 * j + 7) = false ∧
      (value bs + 256 ^ bs.length - ones bs.length).testBit (8 * j + 7) = true := by
  induction bs with
  | nil => cases zero
  | cons b bs ih =>
      have fits := ones_lt bs.length
      rw [List.length_cons, ones_succ, value, pow_succ]
      by_cases first : b = 0
      · have low : b.toNat = 0 := by rw [first]; rfl
        have borrowed : b.toNat + 256 * value bs + 256 ^ bs.length * 256 -
            (1 + 256 * ones bs.length) =
            255 + 256 * (value bs + 256 ^ bs.length - ones bs.length - 1) := by
          omega
        refine ⟨0, Nat.succ_pos _, ?_, ?_⟩
        · rw [testBit_low b.toNat_lt (by decide), low]
          rfl
        · rw [borrowed, testBit_low (by decide) (by decide)]
          decide
      · have behind : 0 ∈ bs := (List.mem_cons.mp zero).resolve_left (Ne.symm first)
        have positive : b.toNat ≠ 0 := fun none =>
          first (UInt8.toNat_inj.mp (by rw [none]; rfl))
        have lent : b.toNat + 256 * value bs + 256 ^ bs.length * 256 -
            (1 + 256 * ones bs.length) =
            (b.toNat - 1) + 256 * (value bs + 256 ^ bs.length - ones bs.length) := by
          omega
        obtain ⟨j, within, clear, set⟩ := ih behind
        have small : b.toNat < 256 := b.toNat_lt
        refine ⟨j + 1, Nat.succ_lt_succ within, ?_, ?_⟩
        · rw [show 8 * (j + 1) + 7 = 8 * j + 7 + 8 by omega, testBit_byte small, clear]
        · rw [lent, show 8 * (j + 1) + 7 = 8 * j + 7 + 8 by omega, testBit_byte (by omega), set]

end Lanes

end Apitap.Foundation
