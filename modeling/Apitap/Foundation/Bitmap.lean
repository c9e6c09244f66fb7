import Mathlib.Data.Nat.Bitwise
import Mathlib.Data.List.Basic

/-!
# Bitmaps

Flags in bytes, the first one in the lowest bit of the first byte, and read back one by one.
-/

namespace Apitap.Foundation

namespace Bitmap

/-- A flag; none past the end. -/
def bit (bm : List UInt8) (i : Nat) : Bool :=
  (bm[i / 8]?).any fun b => b.toNat.testBit (i % 8)

/-- The bytes of some flags. -/
def pack (flags : List Bool) : List UInt8 :=
  (List.range ((flags.length + 7) / 8)).map fun j =>
    UInt8.ofNat (Nat.ofBits fun i : Fin 8 => flags.getD (8 * j + i) false)

variable {flags : List Bool}

@[simp] theorem length_pack : (pack flags).length = (flags.length + 7) / 8 := by
  rw [pack, List.length_map, List.length_range]

theorem bit_pack (i : Nat) : bit (pack flags) i = flags.getD i false := by
  rw [bit, pack, List.getElem?_map]
  by_cases stored : i / 8 < (flags.length + 7) / 8
  · have small : Nat.ofBits (fun k : Fin 8 => flags.getD (8 * (i / 8) + k) false) < 2 ^ 8 :=
      Nat.ofBits_lt_two_pow _
    have code : (UInt8.ofNat
        (Nat.ofBits fun k : Fin 8 => flags.getD (8 * (i / 8) + k) false)).toNat =
        Nat.ofBits fun k : Fin 8 => flags.getD (8 * (i / 8) + k) false :=
      UInt8.toNat_ofNat_of_lt small
    rw [List.getElem?_range stored, Option.map_some, Option.any_some, code,
      Nat.testBit_ofBits_lt _ _ (Nat.mod_lt i (by decide))]
    simp only [Nat.div_add_mod]
  · have none : (List.range ((flags.length + 7) / 8))[i / 8]? = none :=
      List.getElem?_eq_none (by rw [List.length_range]; omega)
    rw [none, Option.map_none, Option.any_none, List.getD_eq_getElem?_getD,
      List.getElem?_eq_none (by omega), Option.getD_none]

/-- Bitmaps of one length are told apart by their flags. -/
theorem ext {a b : List UInt8} (len : a.length = b.length) (same : ∀ i, bit a i = bit b i) :
    a = b := by
  apply List.ext_getElem len
  intro j a_lt b_lt
  apply UInt8.toNat_inj.mp
  apply Nat.eq_of_testBit_eq
  intro k
  by_cases small : k < 8
  · have at_byte : (8 * j + k) / 8 = j := by omega
    have at_bit : (8 * j + k) % 8 = k := by omega
    have flag := same (8 * j + k)
    rw [bit, bit, at_byte, at_bit, List.getElem?_eq_getElem a_lt, List.getElem?_eq_getElem b_lt]
      at flag
    exact flag
  · have past : ∀ c : UInt8, c.toNat.testBit k = false := by
      intro c
      apply Nat.testBit_lt_two_pow
      exact lt_of_lt_of_le c.toNat_lt (Nat.pow_le_pow_right (by decide) (Nat.le_of_not_lt small))
    rw [past, past]

theorem bit_append {a b : List UInt8} (i : Nat) :
    bit (a ++ b) i = if i / 8 < a.length then bit a i else bit b (i - 8 * a.length) := by
  rw [bit]
  split
  · rename_i front
    rw [List.getElem?_append_left front, bit]
  · rename_i back
    have at_byte : (i - 8 * a.length) / 8 = i / 8 - a.length := by omega
    have at_bit : (i - 8 * a.length) % 8 = i % 8 := by omega
    rw [List.getElem?_append_right (Nat.le_of_not_lt back), bit, at_byte, at_bit]

/-- A byte's flags are set in place. -/
theorem bit_modify {a : List UInt8} {j mask : Nat} (small : mask < 256) (i : Nat) :
    bit (a.modify j (· ||| UInt8.ofNat mask)) i =
      (bit a i || (decide (i / 8 = j ∧ j < a.length) && mask.testBit (i % 8))) := by
  rw [bit, bit, List.getElem?_modify]
  by_cases stored : i / 8 < a.length
  · rw [List.getElem?_eq_getElem stored]
    by_cases here : j = i / 8
    · subst here
      simp [stored, Nat.mod_eq_of_lt small]
    · simp [here, Ne.symm here]
  · rw [List.getElem?_eq_none (Nat.le_of_not_lt stored)]
    have nowhere : ¬ (i / 8 = j ∧ j < a.length) := by
      rintro ⟨rfl, within⟩
      exact stored within
    simp [nowhere]

end Bitmap

end Apitap.Foundation
