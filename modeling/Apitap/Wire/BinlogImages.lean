import Apitap.Wire.BinlogRows
import Apitap.Wire.BinlogValues
import Apitap.Wire.CalendarExact

/-!
# Row images as a server writes them

A column of a row image is absent, NULL, or a value in its packed form. An image starts with a
bit for every column present, set for NULL, and goes on with the values. Reading it gives a
row of the same cells: absent columns as unchanged, NULL apart from the empty text.
-/

namespace Apitap.Rows

open Foundation Decimal
open Copy (be)

/-- The packed form of a legal value of a column, and the value's text. -/
inductive Packed (floats : Floats) (c : ColDef) : Bytes → Bytes → Prop where
  | int {n : Nat} {z : Int} (width : intWidth c.kind = some n)
      (inRange : InRange c.unsigned n z) : Packed floats c (intWord n z) (itoaInt z)
  | float {bits : Nat} (kind : c.kind = .float) (fits : bits < 256 ^ 4) :
      Packed floats c (le 4 bits) (floats.single bits)
  | double {bits : Nat} (kind : c.kind = .double) (fits : bits < 256 ^ 8) :
      Packed floats c (le 8 bits) (floats.double bits)
  | year {y : Nat} (kind : c.kind = .year) (legal : y = 0 ∨ (1900 < y ∧ y < 2156)) :
      Packed floats c (le 1 (y - 1900)) (ascii (Radix.digits 10 4 y))
  | date {y m d : Nat} (kind : c.kind = .date) (year : y ≤ 9999) (month : m ≤ 12) (day : d ≤ 31) :
      Packed floats c (le 3 (y * 2 ^ 9 + m * 2 ^ 5 + d)) (showDate y m d)
  | timestamp (v : Timestamp) (kind : c.kind = .timestamp2) (fsp : c.metadata = v.fraction.fsp) :
      Packed floats c v.packed v.text
  | datetime (v : Datetime) (kind : c.kind = .datetime2) (fsp : c.metadata = v.fraction.fsp) :
      Packed floats c v.packed v.text
  | time (v : Time) (kind : c.kind = .time2) (fsp : c.metadata = v.fraction.fsp) :
      Packed floats c v.packed v.text
  | decimal (x : Fixed) (kind : c.kind = .newdecimal)
      (described : c.metadata = x.precision * 256 + x.scale) : Packed floats c x.packed x.text
  | varchar {s : Bytes} (kind : c.kind = .varchar ∨ c.kind = .varString)
      (wide : c.metadata < 65536) (len : s.length ≤ c.metadata) :
      Packed floats c (prefixedWord c.metadata s) s
  | bit {bits : Nat} {s : Bytes} (kind : c.kind = .bit)
      (described : c.metadata = bits % 8 * 256 + bits / 8) (legal : 1 ≤ bits ∧ bits ≤ 64)
      (len : s.length = (bits + 7) / 8) : Packed floats c s s
  | char {len : Nat} {s : Bytes} (kind : c.kind = .string)
      (described : c.metadata = foldString 0xfe len) (small : len < 1024) (text : c.binary = false)
      (fits : s.length ≤ len) : Packed floats c (prefixedWord len s) s
  | binary {v : Bytes} (kind : c.kind = .string) (described : c.metadata = foldString 0xfe v.length)
      (small : v.length < 1024) (binary : c.binary = true) :
      Packed floats c (prefixedWord v.length (stripped v)) v
  | blob {s : Bytes} (kind : IsBlob c.kind) (bytes : 1 ≤ c.metadata ∧ c.metadata ≤ 4)
      (len : s.length < 256 ^ c.metadata) : Packed floats c (le c.metadata s.length ++ s) s
  | enum {n i : Nat} {l : List Bytes} (is : IsEnumOf c n) (bytes : n = 1 ∨ n = 2)
      (labels : c.labels = some l) (few : l.length < 256 ^ n) (within : i ≤ l.length) :
      Packed floats c (le n i) (member l i)
  | set {n v : Nat} {l : List Bytes} (is : IsSetOf c n) (bytes : 1 ≤ n ∧ n ≤ 8)
      (labels : c.labels = some l) (few : l.length ≤ 8 * n)
      (named : ¬ Separated.LeadsEmpty (chosen v l.zipIdx)) (within : v < 2 ^ l.length) :
      Packed floats c (le n v) (members v l.zipIdx)

variable {floats : Floats} {c : ColDef}

theorem decodeCell_decimal {x : Fixed} (kind : c.kind = .newdecimal)
    (described : c.metadata = x.precision * 256 + x.scale) :
    (decodeCell floats c).Reads x.packed x.text := by
  have scale := x.scale_le
  have halves : c.metadata / 256 = x.precision ∧ c.metadata % 256 = x.scale := by omega
  rw [decodeCell, kind]
  simp only [halves.1, halves.2]
  exact x.decimal_reads

/-- A packed value is read back as its text, from exactly its bytes. -/
theorem Packed.reads {w t : Bytes} (packed : Packed floats c w t) :
    (decodeCell floats c).Reads w t := by
  cases packed with
  | int width inRange => exact int_reads width inRange
  | float kind fits =>
      rw [decodeCell, kind]
      exact (uintLe_reads fits).andThen_nil (Cursor.reads_ret _)
  | double kind fits =>
      rw [decodeCell, kind]
      exact (uintLe_reads fits).andThen_nil (Cursor.reads_ret _)
  | year kind legal => exact year_reads kind legal
  | date kind year month day => exact date_reads kind year month day
  | timestamp v kind fsp => exact decodeCell_timestamp kind fsp
  | datetime v kind fsp => exact decodeCell_datetime kind fsp
  | time v kind fsp => exact decodeCell_time kind fsp
  | decimal x kind described => exact decodeCell_decimal kind described
  | varchar kind wide len => exact varchar_reads kind wide len
  | bit kind described legal len => exact bit_reads kind described legal len
  | char kind described small text fits => exact char_reads kind described small text fits
  | binary kind described small binary => exact binary_reads kind described small binary
  | blob kind bytes len => exact blob_reads kind bytes len
  | enum is bytes labels few within => exact enum_reads is bytes labels few within
  | set is bytes labels few named within => exact set_reads is bytes labels few named within

/-! ## Images -/

/-- A column of a row image. -/
inductive Slot where
  | absent
  | null
  | stored (word text : Bytes)

namespace Slot

def present : Slot → Bool
  | absent => false
  | _ => true

def isNull : Slot → Bool
  | null => true
  | _ => false

def word : Slot → Bytes
  | stored word _ => word
  | _ => []

def cell : Slot → Cell
  | absent => .unchangedToast
  | null => .null
  | stored _ text => .text text

/-- A stored value is a legal one of its column. -/
def Legal (floats : Floats) (c : ColDef) : Slot → Prop
  | stored word text => Packed floats c word text
  | _ => True

end Slot

/-- A bit for each column present, and the values. -/
def imageWord (slots : List Slot) : Bytes :=
  Bitmap.pack ((slots.filter Slot.present).map Slot.isNull) ++ slots.flatMap Slot.word

/-- The row an image stands for. -/
def imageTuple (slots : List Slot) : Tuple := Tuple.fromCells (slots.map Slot.cell)

/-- An image of a table's columns with the given ones present, its text below 4 GiB. -/
structure ImageLegal (floats : Floats) (cols : List ColDef) (present : List Bool)
    (slots : List Slot) : Prop where
  legal : List.Forall₂ (Slot.Legal floats) cols slots
  shown : slots.map Slot.present = present
  small : (Tuple.concat (slots.map Slot.cell)).length < 2 ^ 32

variable {cols : List ColDef} {slots : List Slot}

theorem readCells_reads {present nullbm : Bytes} {i k : Nat} {frame : Bytes}
    (legal : List.Forall₂ (Slot.Legal floats) cols slots)
    (shown : ∀ j s, slots[j]? = some s → Bitmap.bit present (i + j) = s.present)
    (nulls : ∀ j b, ((slots.filter Slot.present).map Slot.isNull)[j]? = some b →
      Bitmap.bit nullbm (k + j) = b)
    (small : (frame ++ Tuple.concat (slots.map Slot.cell)).length < 2 ^ 32) :
    (readCells floats present nullbm cols i k frame).Reads (slots.flatMap Slot.word)
      (frame ++ Tuple.concat (slots.map Slot.cell),
        Tuple.ranges frame.length (slots.map Slot.cell)) := by
  induction legal generalizing i k frame with
  | nil =>
      rw [List.map_nil, Tuple.concat, Tuple.ranges, List.append_nil]
      exact Cursor.reads_ret _
  | @cons c s cols slots first legal ih =>
      have here : Bitmap.bit present i = s.present := shown 0 s rfl
      have later : ∀ j s', slots[j]? = some s' → Bitmap.bit present (i + 1 + j) = s'.present := by
        intro j s' at_j
        rw [Nat.add_assoc, Nat.add_comm 1 j]
        exact shown (j + 1) s' at_j
      have rest (null : Bool)
          (split : (((s :: slots).filter Slot.present).map Slot.isNull) =
            null :: (slots.filter Slot.present).map Slot.isNull) :
          Bitmap.bit nullbm k = null ∧
            ∀ j b, ((slots.filter Slot.present).map Slot.isNull)[j]? = some b →
              Bitmap.bit nullbm (k + 1 + j) = b := by
        refine ⟨nulls 0 null (by rw [split]; rfl), fun j b at_j => ?_⟩
        rw [Nat.add_assoc, Nat.add_comm 1 j]
        exact nulls (j + 1) b (by rw [split]; exact at_j)
      rw [readCells]
      cases s with
      | absent =>
          have none : Bitmap.bit present i = false := here
          rw [if_pos none]
          exact (ih later nulls small).andThen_nil (Cursor.reads_ret _)
      | null =>
          obtain ⟨bit, more⟩ := rest true rfl
          have some : Bitmap.bit present i = true := here
          rw [if_neg (by rw [some]; decide), if_pos bit]
          exact (ih later more small).andThen_nil (Cursor.reads_ret _)
      | stored word text =>
          obtain ⟨bit, more⟩ := rest false rfl
          have grown : (frame ++ text ++ Tuple.concat (slots.map Slot.cell)).length < 2 ^ 32 := by
            rw [List.append_assoc]
            exact small
          have fits : frame.length < 2 ^ 32 ∧ text.length < 2 ^ 32 := by
            rw [List.length_append, List.length_append] at grown
            omega
          have some : Bitmap.bit present i = true := here
          rw [if_neg (by rw [some]; decide), if_neg (by rw [bit]; decide)]
          refine (Packed.reads first).andThen ((ih later more grown).andThen_nil ?_)
          rw [Nat.mod_eq_of_lt fits.1, Nat.mod_eq_of_lt fits.2, List.append_assoc,
            List.length_append]
          exact Cursor.reads_ret _

/-- As many bits as columns present. -/
theorem length_present (flags : List Bool) :
    ((List.range flags.length).filter (Bitmap.bit (Bitmap.pack flags))).length =
      (flags.filter id).length := by
  have same : (List.range flags.length).filter (Bitmap.bit (Bitmap.pack flags)) =
      (List.range flags.length).filter fun i => flags.getD i false := by
    refine List.filter_congr fun i _ => ?_
    rw [Bitmap.bit_pack]
  have listed : (List.range flags.length).map (fun i => flags.getD i false) = flags := by
    refine List.ext_getElem (by rw [List.length_map, List.length_range]) fun i _ inside => ?_
    rw [List.getElem_map, List.getElem_range, List.getD_eq_getElem _ _ inside]
  have counted := congrArg (fun l => (l.filter id).length) listed
  simp only [List.filter_map, List.length_map] at counted
  rw [same, ← counted]
  rfl

theorem readRow_reads {present : List Bool} (legal : ImageLegal floats cols present slots) :
    (readRow floats cols (Bitmap.pack present) cols.length).Reads (imageWord slots)
      (imageTuple slots) := by
  obtain ⟨legal, shown, small⟩ := legal
  have size : present.length = cols.length := by
    rw [← shown, List.length_map, legal.length_eq]
  have count : (((List.range cols.length).filter (Bitmap.bit (Bitmap.pack present))).length + 7) / 8
    =
      (Bitmap.pack ((slots.filter Slot.present).map Slot.isNull)).length := by
    rw [← size, length_present, Bitmap.length_pack, List.length_map, ← shown, List.filter_map,
      List.length_map]
    rfl
  rw [readRow, count, List.take_length]
  refine (take_reads rfl).andThen ((readCells_reads legal ?_ ?_ ?_).andThen_nil
    (Cursor.reads_ret _))
  · intro j s at_j
    rw [Nat.zero_add, Bitmap.bit_pack, ← shown, List.getD_eq_getElem?_getD, List.getElem?_map, at_j]
    rfl
  · intro j b at_j
    rw [Nat.zero_add, Bitmap.bit_pack, List.getD_eq_getElem?_getD, at_j]
    rfl
  · rw [List.nil_append]
    exact small

/-- An image with a column present has a byte at least. -/
theorem imageWord_ne_nil (some_present : ∃ s ∈ slots, s.present = true) : imageWord slots ≠ [] := by
  obtain ⟨s, s_mem, present⟩ := some_present
  have some : 0 < (slots.filter Slot.present).length :=
    List.length_pos_of_mem (List.mem_filter.mpr ⟨s_mem, present⟩)
  intro empty
  have size := congrArg List.length empty
  rw [imageWord, List.length_append, Bitmap.length_pack, List.length_map, List.length_nil] at size
  omega

end Apitap.Rows
