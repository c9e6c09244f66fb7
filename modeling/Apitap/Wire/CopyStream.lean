import Apitap.Foundation.Radix
import Apitap.Wire.Pgoutput

/-!
# A binary COPY stream

The header (signature, flags, a length-prefixed extension), one tuple after another as a
field count and length-prefixed fields, and a trailer of two bytes where the next field
count would stand.
-/

namespace Apitap.Copy

open Foundation

/-- A number as big-endian bytes. -/
def be (w n : Nat) : Bytes := (Radix.digits 256 w n).map UInt8.ofNat

/-- The number big-endian bytes denote. -/
def fromBe (bs : Bytes) : Nat := Radix.value 256 (bs.map UInt8.toNat)

@[simp] theorem length_be {w n : Nat} : (be w n).length = w := by
  rw [be, List.length_map, Radix.length_digits]

theorem fromBe_lt (bs : Bytes) : fromBe bs < 256 ^ bs.length := by
  have bytes : ∀ d ∈ bs.map UInt8.toNat, d < 256 := by
    intro d d_mem
    obtain ⟨b, -, rfl⟩ := List.mem_map.mp d_mem
    exact b.toNat_lt
  simpa [fromBe] using Radix.value_lt bytes

theorem fromBe_append (u v : Bytes) : fromBe (u ++ v) = fromBe u * 256 ^ v.length + fromBe v := by
  rw [fromBe, List.map_append, Radix.value_append, List.length_map]
  rfl

theorem fromBe_be {w n : Nat} (fits : n < 256 ^ w) : fromBe (be w n) = n := by
  have back : ∀ d ∈ Radix.digits 256 w n, (UInt8.toNat ∘ UInt8.ofNat) d = d := fun d d_mem =>
    UInt8.toNat_ofNat_of_lt (Radix.digits_lt (by decide) d d_mem)
  rw [fromBe, be, List.map_map, List.map_congr_left back, List.map_id',
    Radix.value_digits_of_lt fits]

theorem be_fromBe (bs : Bytes) : be bs.length (fromBe bs) = bs := by
  have bytes : ∀ d ∈ bs.map UInt8.toNat, d < 256 := by
    intro d d_mem
    obtain ⟨b, -, rfl⟩ := List.mem_map.mp d_mem
    exact b.toNat_lt
  have digits := Radix.digits_value (by decide) bytes
  rw [List.length_map] at digits
  rw [be, fromBe, digits, List.map_map]
  exact (List.map_congr_left fun b _ => UInt8.ofNat_toNat).trans (List.map_id _)

/-- `PGCOPY\n\xff\r\n\0`. -/
def signature : Bytes := [0x50, 0x47, 0x43, 0x4F, 0x50, 0x59, 0x0A, 0xFF, 0x0D, 0x0A, 0x00]

structure Header where
  flags : Bytes
  ext : Bytes
  flags_len : flags.length = 4
  ext_lt : ext.length < 256 ^ 4

/-- The nineteen fixed bytes of a header. -/
def Header.fixed (h : Header) : Bytes := signature ++ h.flags ++ be 4 h.ext.length

def Header.bytes (h : Header) : Bytes := h.fixed ++ h.ext

@[simp] theorem Header.length_fixed (h : Header) : h.fixed.length = 19 := by
  simp [Header.fixed, h.flags_len, signature]

theorem Header.take_signature (h : Header) (y : Bytes) : (h.fixed ++ y).take 11 = signature := by
  simp [Header.fixed, signature]

theorem Header.drop_fixed (h : Header) : h.fixed.drop 15 = be 4 h.ext.length := by
  rw [Header.fixed, List.drop_append_of_le_length (by simp [signature, h.flags_len]),
    List.drop_of_length_le (by simp [signature, h.flags_len]), List.nil_append]

/-- The extension's length word. -/
theorem Header.fromBe_ext (h : Header) : fromBe (h.fixed.drop 15) = h.ext.length := by
  rw [h.drop_fixed, fromBe_be h.ext_lt]

/-- One tuple: a NULL field or its bytes, each short enough for its length word. -/
structure Row where
  fields : List (Option Bytes)
  count_lt : fields.length < 2 ^ 15
  field_lt : ∀ v, some v ∈ fields → v.length < 2 ^ 31

/-- A length word and the field; NULL is length −1. -/
def field : Option Bytes → Bytes
  | none => [0xFF, 0xFF, 0xFF, 0xFF]
  | some v => be 4 v.length ++ v

def Row.bytes (r : Row) : Bytes := be 2 r.fields.length ++ r.fields.flatMap field

/-- The field count −1. -/
def trailer : Bytes := [0xFF, 0xFF]

def tuples (rows : List Row) : Bytes := rows.flatMap Row.bytes

/-- A whole stream. -/
def stream (h : Header) (rows : List Row) : Bytes := h.bytes ++ (tuples rows ++ trailer)

end Apitap.Copy
