import Apitap.Foundation.Bitmap
import Apitap.Wire.ArrowColumn

/-!
# The cells of an Arrow column

What a column's buffers hold is a function of its cells: the bitmap of those that are not NULL,
their values, or their bytes one behind the other with the ends. A cell that is appended and a
field that is decoded do the same to it.
-/

namespace Apitap.Arrow

open Foundation
open Copy (fromBe fromBeInt pgEpochDays pgEpochMicros numericToScaledI128)
open Parquet (sized)

/-! ## Bitmaps that grow -/

theorem bit_zero (i : Nat) : Bitmap.bit [0] i = false := by
  rw [Bitmap.bit]
  cases is : ([0] : Bytes)[i / 8]? with
  | none => rfl
  | some b =>
      obtain rfl := List.mem_singleton.mp (List.mem_of_getElem? is)
      exact Nat.zero_testBit _

theorem one_shift_lt (row : Nat) : 1 <<< (row % 8) < 256 := by
  rw [Nat.one_shiftLeft]
  exact Nat.pow_lt_pow_right (by decide) (Nat.mod_lt row (by decide) : row % 8 < 8)

theorem getD_snoc (flags : List Bool) (on : Bool) (i : Nat) :
    (flags ++ [on]).getD i false = (flags.getD i false || (decide (i = flags.length) && on)) := by
  rw [List.getD_eq_getElem?_getD, List.getD_eq_getElem?_getD]
  by_cases within : i < flags.length
  · rw [List.getElem?_append_left within]
    simp [Nat.ne_of_lt within]
  · rw [List.getElem?_append_right (Nat.le_of_not_lt within),
      List.getElem?_eq_none (Nat.le_of_not_lt within)]
    by_cases here : i = flags.length
    · simp [here]
    · rw [List.getElem?_eq_none (by rw [List.length_singleton]; omega)]
      simp [here]

theorem pushBit_pack (flags : List Bool) (on : Bool) :
    pushBit (Bitmap.pack flags) flags.length on = Bitmap.pack (flags ++ [on]) := by
  let bm := if flags.length % 8 = 0 then Bitmap.pack flags ++ [0] else Bitmap.pack flags
  have len : bm.length = flags.length / 8 + 1 := by
    by_cases whole : flags.length % 8 = 0
    · simp only [bm, if_pos whole, List.length_append, Bitmap.length_pack, List.length_singleton]
      omega
    · simp only [bm, if_neg whole, Bitmap.length_pack]
      omega
  have flag (i : Nat) : Bitmap.bit bm i = flags.getD i false := by
    by_cases whole : flags.length % 8 = 0
    · simp only [bm, if_pos whole, Bitmap.bit_append, Bitmap.bit_pack, bit_zero]
      split
      · rfl
      · rename_i past
        rw [Bitmap.length_pack] at past
        rw [List.getD_eq_getElem?_getD, List.getElem?_eq_none (by omega), Option.getD_none]
    · simp only [bm, if_neg whole, Bitmap.bit_pack]
  have is : pushBit (Bitmap.pack flags) flags.length on =
      if on then bm.modify (bm.length - 1) (· ||| UInt8.ofNat (1 <<< (flags.length % 8)))
      else bm := rfl
  rw [is]
  apply Bitmap.ext
  · rw [Bitmap.length_pack, List.length_append, List.length_singleton]
    cases on with
    | true =>
        rw [if_pos rfl, List.length_modify, len]
        omega
    | false =>
        rw [if_neg Bool.false_ne_true, len]
        omega
  · intro i
    rw [Bitmap.bit_pack, getD_snoc]
    cases on with
    | true =>
        rw [if_pos rfl, Bitmap.bit_modify (one_shift_lt _), flag, len, Nat.one_shiftLeft,
          Nat.testBit_two_pow, Bool.and_true]
        congr 1
        rw [← Bool.decide_and]
        apply decide_eq_decide.mpr
        omega
    | false => rw [if_neg Bool.false_ne_true, flag, Bool.and_false, Bool.or_false]

theorem bit_ones (n i : Nat) :
    Bitmap.bit (List.replicate n (0xFF : UInt8)) i = decide (i / 8 < n) := by
  rw [Bitmap.bit, List.getElem?_replicate]
  split
  · rename_i within
    have ones : ∀ k < 8, (0xFF : UInt8).toNat.testBit k = true := by decide
    rw [Option.any_some, ones _ (Nat.mod_lt i (by decide)), decide_eq_true within]
  · rename_i past
    rw [Option.any_none, decide_eq_false past]

theorem bit_low {n : Nat} (small : n < 8) (i : Nat) :
    Bitmap.bit [UInt8.ofNat ((1 <<< n) - 1)] i = decide (i < n) := by
  have within : (1 <<< n) - 1 < 256 := by
    rw [Nat.one_shiftLeft]
    exact lt_of_le_of_lt (Nat.sub_le _ _) (Nat.pow_lt_pow_right (by decide) small)
  rw [Bitmap.bit]
  by_cases first : i / 8 = 0
  · have here : i % 8 = i := by omega
    have code : (UInt8.ofNat ((1 <<< n) - 1)).toNat = (1 <<< n) - 1 :=
      UInt8.toNat_ofNat_of_lt within
    rw [first, List.getElem?_cons_zero, Option.any_some, here, code, Nat.one_shiftLeft,
      Nat.testBit_two_pow_sub_one]
  · rw [List.getElem?_eq_none (by rw [List.length_singleton]; omega), Option.any_none]
    symm
    apply decide_eq_false
    omega

/-- What a bitmap that begins at row `n` is filled with. -/
theorem pack_true (n : Nat) : Bitmap.pack (List.replicate n true) =
    (if n % 8 ≠ 0 then
      List.replicate (n / 8) (0xFF : UInt8) ++ [UInt8.ofNat ((1 <<< (n % 8)) - 1)]
    else List.replicate (n / 8) (0xFF : UInt8)) := by
  have past (i : Nat) : (List.replicate n true).getD i false = decide (i < n) := by
    rw [List.getD_eq_getElem?_getD, List.getElem?_replicate]
    split
    · rename_i within
      rw [decide_eq_true within]
      rfl
    · rename_i past
      rw [decide_eq_false past]
      rfl
  apply Bitmap.ext
  · rw [Bitmap.length_pack, List.length_replicate]
    split
    · rw [List.length_append, List.length_replicate, List.length_singleton]
      omega
    · rw [List.length_replicate]
      omega
  · intro i
    rw [Bitmap.bit_pack, past]
    split
    · rw [Bitmap.bit_append, List.length_replicate, bit_ones, bit_low (Nat.mod_lt n (by decide))]
      split
      · rename_i within
        apply decide_eq_decide.mpr
        omega
      · rename_i past
        apply decide_eq_decide.mpr
        omega
    · rw [bit_ones]
      apply decide_eq_decide.mpr
      omega

/-- The bitmap of some flags, kept from the first one that is off. -/
def bitmap (flags : List Bool) : Option Bytes :=
  if flags.all id then none else some (Bitmap.pack flags)

theorem mark_bitmap (flags : List Bool) (valid : Bool) :
    mark (bitmap flags) flags.length valid = bitmap (flags ++ [valid]) := by
  by_cases all : flags.all id = true
  · have ones : flags = List.replicate flags.length true := by
      apply List.eq_replicate_iff.mpr
      refine ⟨rfl, ?_⟩
      intro flag mem
      exact List.all_eq_true.mp all flag mem
    rw [bitmap, if_pos all]
    cases valid with
    | true =>
        have more : (flags ++ [true]).all id = true := by
          rw [List.all_append, all]
          rfl
        rw [bitmap, if_pos more]
        rfl
    | false =>
        have less : ¬ (flags ++ [false]).all id = true := by
          rw [List.all_append]
          simp
        have filled := pushBit_pack (List.replicate flags.length true) false
        rw [List.length_replicate, ← ones] at filled
        rw [bitmap, if_neg less, ← filled, ones, pack_true, List.length_replicate]
        rfl
  · have less : ¬ (flags ++ [valid]).all id = true := by
      rw [List.all_append, Bool.and_eq_true]
      exact fun both => all both.1
    rw [bitmap, if_neg all, bitmap, if_neg less, ← pushBit_pack]
    rfl

/-! ## What a column's cells make of it -/

namespace CellVal

def int : CellVal → Int
  | .i16 x => x
  | .i32 x => x
  | .i64 x => x
  | .dec128 x => x
  | .dateDays x => x
  | .tsMicros x => x
  | _ => 0

/-- A float's bits. -/
def float : CellVal → Nat
  | .f32 x => x
  | .f64 x => x
  | _ => 0

def flag : CellVal → Bool
  | .bool x => x
  | _ => false

def bytes : CellVal → Bytes
  | .str b => b
  | .bin b => b
  | _ => []

/-- The cell is one of a column's kind, or NULL. -/
def Fits : ArrowKind → CellVal → Prop
  | _, .null => True
  | .int16, .i16 _ => True
  | .int32, .i32 _ => True
  | .int64, .i64 _ => True
  | .float32, .f32 _ => True
  | .float64, .f64 _ => True
  | .bool, .bool _ => True
  | .decimal _ _, .dec128 _ => True
  | .date32, .dateDays _ => True
  | .timestampUtc, .tsMicros _ => True
  | .timestampNaive, .tsMicros _ => True
  | .utf8, .str _ => True
  | .binary, .bin _ => True
  | _, _ => False

end CellVal

/-- The cells that are not NULL. -/
def present (cells : List CellVal) : List Bool := cells.map fun c => decide (c ≠ .null)

/-- The ends of the cells' bytes, from the start of the first. -/
def ends (cells : List CellVal) : List Nat :=
  (List.range (cells.length + 1)).map fun i => ((cells.take i).flatMap CellVal.bytes).length

/-- The buffers of a column of some cells. -/
def colOf (cells : List CellVal) : ArrowKind → ColB
  | .int16 => .i16 (bitmap (present cells)) (cells.map CellVal.int)
  | .int32 => .i32 (bitmap (present cells)) (cells.map CellVal.int)
  | .int64 => .i64 (bitmap (present cells)) (cells.map CellVal.int)
  | .float32 => .f32 (bitmap (present cells)) (cells.map CellVal.float)
  | .float64 => .f64 (bitmap (present cells)) (cells.map CellVal.float)
  | .bool => .bool (bitmap (present cells)) (Bitmap.pack (cells.map CellVal.flag))
  | .decimal _ s => .dec (bitmap (present cells)) (cells.map CellVal.int) s.toNat
  | .date32 => .d32 (bitmap (present cells)) (cells.map CellVal.int)
  | .timestampUtc => .ts (bitmap (present cells)) (cells.map CellVal.int)
  | .timestampNaive => .ts (bitmap (present cells)) (cells.map CellVal.int)
  | .utf8 =>
      .utf8 (bitmap (present cells)) ((ends cells).map asI32) (cells.flatMap CellVal.bytes)
  | .binary =>
      .bin (bitmap (present cells)) ((ends cells).map asI32) (cells.flatMap CellVal.bytes)

variable {kinds : List ArrowKind} {kind : ArrowKind} {cells : List CellVal} {cell : CellVal}

@[simp] theorem length_ends : (ends cells).length = cells.length + 1 := by
  rw [ends, List.length_map, List.length_range]

theorem ends_snoc : ends (cells ++ [cell]) =
    ends cells ++ [(cells.flatMap CellVal.bytes ++ cell.bytes).length] := by
  rw [ends, List.length_append, List.length_singleton, List.range_succ, List.map_append,
    List.map_singleton, List.take_of_length_le (by simp), List.flatMap_append,
    List.flatMap_singleton, ends]
  congr 1
  apply List.map_congr_left
  intro i mem
  rw [List.take_append_of_le_length (Nat.le_of_lt_succ (List.mem_range.mp mem))]

theorem ends_last : (ends cells).getLastD 0 = (cells.flatMap CellVal.bytes).length := by
  rw [ends, List.range_succ, List.map_append, List.map_singleton, List.getLastD_concat,
    List.take_length]

theorem colOf_nil : colOf [] kind = ColB.new kind := by
  cases kind <;> rfl

theorem bitmap_snoc : bitmap (present (cells ++ [cell])) =
    mark (bitmap (present cells)) cells.length (decide (cell ≠ .null)) := by
  have marked := mark_bitmap (present cells) (decide (cell ≠ .null))
  have len : (present cells).length = cells.length := List.length_map _
  rw [len] at marked
  rw [marked, present, List.map_append, List.map_singleton]
  rfl

theorem flags_snoc : Bitmap.pack (cells.map CellVal.flag ++ [cell.flag]) =
    pushBit (Bitmap.pack (cells.map CellVal.flag)) cells.length cell.flag := by
  have pushed := pushBit_pack (cells.map CellVal.flag) cell.flag
  rw [List.length_map] at pushed
  exact pushed.symm

/-- A cell of the column's kind goes behind the others. -/
theorem appendCell_colOf (fits : cell.Fits kind) :
    (colOf cells kind).appendCell cells.length cell = some (colOf (cells ++ [cell]) kind) := by
  cases kind <;> cases cell <;>
    first
    | exact False.elim fits
    | simp only [colOf, ColB.appendCell, bitmap_snoc, flags_snoc, ends_snoc, List.map_append,
        List.map_singleton, List.flatMap_append, List.flatMap_singleton, CellVal.bytes,
        List.append_nil]
      rfl

/-- Only cells of its kind go into a column. -/
theorem fits_of_appendCell {r : Nat} {col : ColB}
    (is : (colOf cells kind).appendCell r cell = some col) : cell.Fits kind := by
  cases kind <;> cases cell <;>
    first
    | exact trivial
    | cases is

/-- What a field is in a column of a kind. A number that is refused counts for nothing. -/
def value : ArrowKind → Option Bytes → CellVal
  | _, none => .null
  | .int16, some f => .i16 (fromBeInt f)
  | .int32, some f => .i32 (fromBeInt f)
  | .int64, some f => .i64 (fromBeInt f)
  | .float32, some f => .f32 (fromBe f)
  | .float64, some f => .f64 (fromBe f)
  | .bool, some f => .bool (f.headD 0 != 0)
  | .decimal _ s, some f => .dec128 ((numericToScaledI128 f s.toNat).toOption.getD 0)
  | .date32, some f => .dateDays (fromBeInt f + pgEpochDays)
  | .timestampUtc, some f => .tsMicros (fromBeInt f + pgEpochMicros)
  | .timestampNaive, some f => .tsMicros (fromBeInt f + pgEpochMicros)
  | .utf8, some f => .str f
  | .binary, some f => .bin f

theorem asI32_small {n : Nat} (small : n ≤ 2 ^ 31 - 1) : asI32 n = n := by
  have low : -(((4294967296 : Nat) : Int) / 2) ≤ (n : Int) := by omega
  have high : (n : Int) < (((4294967296 : Nat) : Int) + 1) / 2 := by omega
  exact Int.bmod_eq_of_le low high

theorem tryI32_ok {n : Nat} {o : Int} (is : tryI32 n = .ok o) : o = asI32 n := by
  rw [tryI32] at is
  split at is
  · rename_i small
    cases is
    exact (asI32_small small).symm
  · cases is

theorem intSized_ok {n : Nat} {what : String} {f g : Bytes} (is : intSized n what f = .ok g) :
    g = f := by
  rw [intSized] at is
  split at is <;> cases is
  rfl

theorem sized_ok {n : Nat} {what : String} {f g : Bytes} (is : sized n what f = .ok g) :
    g = f := by
  rw [sized] at is
  split at is <;> cases is
  rfl

theorem orErr_checked {w : Nat} {e : Error} {z x : Int}
    (is : Stop.orErr e (checked w z) = .ok x) : x = z := by
  rw [checked] at is
  split at is <;> cases is
  rfl

theorem ends_map_last :
    ((ends cells).map asI32).getLastD 0 = asI32 (cells.flatMap CellVal.bytes).length := by
  have zero : (0 : Int) = asI32 0 := rfl
  rw [zero, List.getLastD_map, ends_last]

/-- A staged field does what its cell does. -/
theorem appendCell_of_decodeField {r : Nat} {f : Option Bytes} {col : ColB}
    (is : (colOf cells kind).decodeField r f = .ok col) :
    (colOf cells kind).appendCell r (value kind f) = some col := by
  cases f with
  | none =>
      cases kind with
      | utf8 =>
          cases is
          rw [ends_map_last]
          rfl
      | binary =>
          cases is
          rw [ends_map_last]
          rfl
      | _ =>
          cases is
          rfl
  | some f =>
      cases kind with
      | int16 =>
          obtain ⟨g, wide, same⟩ := map_eq_ok.mp is
          cases intSized_ok wide
          exact congrArg some same
      | int32 =>
          obtain ⟨g, wide, same⟩ := map_eq_ok.mp is
          cases intSized_ok wide
          exact congrArg some same
      | int64 =>
          obtain ⟨g, wide, same⟩ := map_eq_ok.mp is
          cases intSized_ok wide
          exact congrArg some same
      | float32 =>
          obtain ⟨g, wide, same⟩ := map_eq_ok.mp is
          cases sized_ok wide
          exact congrArg some same
      | float64 =>
          obtain ⟨g, wide, same⟩ := map_eq_ok.mp is
          cases sized_ok wide
          exact congrArg some same
      | bool =>
          cases is
          rfl
      | decimal p s =>
          obtain ⟨x, scaled, same⟩ := map_eq_ok.mp is
          rw [value, scaled]
          exact congrArg some same
      | date32 =>
          obtain ⟨g, wide, same⟩ := bind_eq_ok.mp is
          cases sized_ok wide
          dsimp only at same
          split at same
          · cases same
          · obtain ⟨x, day, same⟩ := map_eq_ok.mp same
            cases orErr_checked day
            exact congrArg some same
      | timestampUtc | timestampNaive =>
          obtain ⟨g, wide, same⟩ := bind_eq_ok.mp is
          cases sized_ok wide
          dsimp only at same
          split at same
          · cases same
          · obtain ⟨x, micros, same⟩ := map_eq_ok.mp same
            cases orErr_checked micros
            exact congrArg some same
      | utf8 =>
          obtain ⟨o, fits, same⟩ := map_eq_ok.mp is
          rw [tryI32_ok fits] at same
          exact congrArg some same
      | binary =>
          obtain ⟨o, fits, same⟩ := map_eq_ok.mp is
          rw [tryI32_ok fits] at same
          exact congrArg some same

theorem decodeField_colOf {f : Option Bytes} {col : ColB}
    (is : (colOf cells kind).decodeField cells.length f = .ok col) :
    col = colOf (cells ++ [value kind f]) kind := by
  have added := appendCell_of_decodeField is
  rw [appendCell_colOf (fits_of_appendCell added)] at added
  exact (Option.some.inj added).symm

theorem decodeFields_colOf {fs : List (Option Bytes)} {col : ColB}
    (is : (colOf cells kind).decodeFields cells.length fs = .ok col) :
    col = colOf (cells ++ fs.map (value kind)) kind := by
  induction fs generalizing cells with
  | nil =>
      cases is
      rw [List.map_nil, List.append_nil]
  | cons f fs ih =>
      obtain ⟨col₁, one, rest⟩ := bind_eq_ok.mp is
      have len : (cells ++ [value kind f]).length = cells.length + 1 := List.length_append
      rw [decodeField_colOf one, ← len] at rest
      rw [ih rest, List.append_assoc, List.map_cons, List.singleton_append]

end Apitap.Arrow
