import Apitap.Wire.CsvOut

/-!
# Raw bytes in CSV

The bit operations on three bytes write their base64, and hexadecimal digits come back as the
bytes they stand for: a column of raw bytes arrives as the base64 of its bytes.
-/

namespace Apitap.CsvOut

open Foundation
open RowText (LowerHex.encode LowerHex.digit)

section Bits

variable (a b c : UInt8)

theorem toNat_shiftRight {k : UInt8} {n : Nat} (is : k.toNat % 8 = n) :
    (a >>> k).toNat = a.toNat / 2 ^ n := by
  rw [UInt8.toNat_shiftRight, is]
  exact Nat.shiftRight_eq_div_pow _ _

/-- The first bits of a byte before some others. -/
theorem toNat_join {high low k : UInt8} {n : Nat} (is : k.toNat % 8 = n)
    (below : low.toNat < 2 ^ n) (fits : high.toNat * 2 ^ n < 256) :
    (high <<< k ||| low).toNat = high.toNat * 2 ^ n + low.toNat := by
  have shifted : (high <<< k).toNat = high.toNat <<< n := by
    rw [UInt8.toNat_shiftLeft, is, Nat.shiftLeft_eq]
    exact Nat.mod_eq_of_lt fits
  rw [UInt8.toNat_or, shifted, ← Nat.shiftLeft_add_eq_or_of_lt below, Nat.shiftLeft_eq]

theorem toNat_and_three : (a &&& 0x03).toNat = a.toNat % 4 := by
  rw [UInt8.toNat_and]
  exact Nat.and_two_pow_sub_one_eq_mod _ 2

theorem toNat_and_fifteen : (b &&& 0x0F).toNat = b.toNat % 16 := by
  rw [UInt8.toNat_and]
  exact Nat.and_two_pow_sub_one_eq_mod _ 4

theorem toNat_and_last : (c &&& 0x3F).toNat = c.toNat % 64 := by
  rw [UInt8.toNat_and]
  exact Nat.and_two_pow_sub_one_eq_mod _ 6

theorem toNat_front : (a >>> 2).toNat = a.toNat / 4 := toNat_shiftRight a rfl

theorem toNat_second :
    ((a &&& 0x03) <<< 4 ||| b >>> 4).toNat = a.toNat % 4 * 16 + b.toNat / 16 := by
  have byte := b.toNat_lt
  have low : (b >>> 4).toNat = b.toNat / 16 := toNat_shiftRight b rfl
  rw [toNat_join (show (4 : UInt8).toNat % 8 = 4 from rfl), toNat_and_three, low]
  · rfl
  · rw [low]
    omega
  · rw [toNat_and_three]
    omega

theorem toNat_third :
    ((b &&& 0x0F) <<< 2 ||| c >>> 6).toNat = b.toNat % 16 * 4 + c.toNat / 64 := by
  have byte := c.toNat_lt
  have low : (c >>> 6).toNat = c.toNat / 64 := toNat_shiftRight c rfl
  rw [toNat_join (show (2 : UInt8).toNat % 8 = 2 from rfl), toNat_and_fifteen, low]
  · rfl
  · rw [low]
    omega
  · rw [toNat_and_fifteen]
    omega

end Bits

theorem symbolAt_eq {i : UInt8} {n : Nat} (is : i.toNat = n) (lt : n < 64) :
    symbolAt i = Base64.symbol n := by
  have all : ∀ n < 64, alphabet.getD n 0 = Base64.symbol n := by decide +kernel
  rw [symbolAt, is]
  exact all n lt

theorem base64Into_eq (bs : Bytes) : base64Into bs = Base64.encode bs := by
  induction bs using base64Into.induct with
  | case1 => rfl
  | case2 a =>
      have byte := a.toNat_lt
      have second : ((a &&& 0x03) <<< 4 ||| (0 : UInt8) >>> 4).toNat = a.toNat % 4 * 16 :=
        toNat_second a 0
      rw [base64Into, Base64.encode, symbolAt_eq (toNat_front a) (by omega),
        symbolAt_eq second (by omega)]
      rfl
  | case3 a b =>
      have a_lt := a.toNat_lt
      have b_lt := b.toNat_lt
      have third : ((b &&& 0x0F) <<< 2 ||| (0 : UInt8) >>> 6).toNat = b.toNat % 16 * 4 :=
        toNat_third b 0
      rw [base64Into, Base64.encode, symbolAt_eq (toNat_front a) (by omega),
        symbolAt_eq (toNat_second a b) (by omega), symbolAt_eq third (by omega)]
      rfl
  | case4 a b c rest ih =>
      have a_lt := a.toNat_lt
      have b_lt := b.toNat_lt
      have c_lt := c.toNat_lt
      rw [base64Into, Base64.encode, symbolAt_eq (toNat_front a) (by omega),
        symbolAt_eq (toNat_second a b) (by omega), symbolAt_eq (toNat_third b c) (by omega),
        symbolAt_eq (toNat_and_last c) (by omega), ih]

/-! ## Hexadecimal -/

theorem hexVal_digit : ∀ n < 16, hexVal (LowerHex.digit n) = UInt8.ofNat n := by decide

theorem hexBytes_encode (bs : Bytes) : hexBytes (LowerHex.encode bs) = bs := by
  induction bs with
  | nil => rfl
  | cons b bs ih =>
      have byte := b.toNat_lt
      have back : UInt8.ofNat (b.toNat / 16) <<< 4 ||| UInt8.ofNat (b.toNat % 16) = b := by
        have high : (UInt8.ofNat (b.toNat / 16)).toNat = b.toNat / 16 :=
          UInt8.toNat_ofNat_of_lt (show b.toNat / 16 < 256 by omega)
        have low : (UInt8.ofNat (b.toNat % 16)).toNat = b.toNat % 16 :=
          UInt8.toNat_ofNat_of_lt (show b.toNat % 16 < 256 by omega)
        apply UInt8.toNat_inj.mp
        rw [toNat_join (show (4 : UInt8).toNat % 8 = 4 from rfl), high, low]
        · omega
        · rw [low]
          omega
        · rw [high]
          omega
      have rest : LowerHex.encode (b :: bs) = LowerHex.digit (b.toNat / 16) ::
          LowerHex.digit (b.toNat % 16) :: LowerHex.encode bs := rfl
      rw [rest, hexBytes, hexVal_digit _ (by omega), hexVal_digit _ (by omega), back, ih]

/-- A column of raw bytes, as the source renders it. -/
def byteaText (bs : Bytes) : Bytes := [0x5C, 0x78] ++ LowerHex.encode bs

theorem stripHex_byteaText (bs : Bytes) : stripHex (byteaText bs) = LowerHex.encode bs := by
  rw [stripHex, if_pos ⟨LowerHex.encode bs, rfl⟩]
  rfl

theorem csvValue_bytes (bs : Bytes) : csvValue .bytes (byteaText bs) =
    if bs = [] then [0x22, 0x22] else Base64.encode bs := by
  have empty : LowerHex.encode bs = [] ↔ bs = [] := by
    cases bs with
    | nil => exact ⟨fun _ => rfl, fun _ => rfl⟩
    | cons b bs => exact ⟨fun none_ => (by cases none_), fun none_ => (by cases none_)⟩
  rw [csvValue, stripHex_byteaText]
  simp only [empty, hexBytes_encode, base64Into_eq]

end Apitap.CsvOut
