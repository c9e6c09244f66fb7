import Apitap.Foundation.Elements
import Apitap.Wire.ArrowBatch
import Apitap.Wire.ArrowWalk
import Apitap.Wire.ParquetFraming

/-!
# What is staged

The header, a tuple and the trailer of a span are elements, and the state between them is whether
there is a span. What is staged are the tuples at the front of the data, and what is decoded are
their cells. A field that does not decode in one batch does not in another, but for the 32 bits
that a varlen column addresses its bytes with.
-/

namespace Apitap.Arrow

open Foundation
open Copy (fromBe fromBeInt)
open Parquet (rawFields rawTuple sub)

variable {kinds : List ArrowKind} {kind : ArrowKind} {cells : List CellVal}
  {rows : List (List CellVal)} {b b' : BatchBuilder} {e : Stop Error} {n ncols : Nat}
  {data : Bytes} {fin pos o o' : Nat}

/-! ## Elements of spans -/

theorem header_pos {x : Bytes} {k : Nat} (found : header x = .ok (some k)) : 0 < k := by
  rw [header] at found
  split at found
  · cases found
  · split at found
    · cases found
    · dsimp only at found
      split at found
      · cases found
      · cases found
        exact Nat.lt_of_lt_of_le (by decide) (Nat.le_add_right 19 _)

/-- A header where there is no span, a tuple or the trailer where there is. -/
def spanNext (n : Nat) (inSpan : Bool) (x : Bytes) :
    Except (Stop Error) (Option (Nat × Bool × Option (List (Option Bytes)))) :=
  if inSpan then (rawTuple n x).map (Option.map fun r => (r.1, r.2.isSome, r.2))
  else (header x).map (Option.map fun k => (k, true, none))

theorem spanNext_in (n : Nat) (x : Bytes) :
    spanNext n true x = (rawTuple n x).map (Option.map fun r => (r.1, r.2.isSome, r.2)) := rfl

theorem optionMap_none {ε α β : Type} {x : Except ε (Option α)} {f : α → β} :
    x.map (Option.map f) = .ok none ↔ x = .ok none := by
  cases x with
  | error e => simp [Except.map]
  | ok found => cases found <;> simp [Except.map]

/-- Spans of tuples of `n` fields. -/
def spans (n : Nat) : Elements (Stop Error) UInt8 Bool (List (Option Bytes)) where
  next := spanNext n
  next_le {s b k t r} read := by
    cases s with
    | false =>
        obtain ⟨k', found, same⟩ := optionMap_ok.mp read
        cases same
        exact ⟨header_pos found, (Parquet.rowFormat n).header_le found⟩
    | true =>
        obtain ⟨r', found, same⟩ := optionMap_ok.mp read
        cases same
        exact (Parquet.rowFormat n).item_le found
  next_append {s b r} x read := by
    cases s with
    | false =>
        obtain ⟨k', found, same⟩ := optionMap_ok.mp read
        exact optionMap_ok.mpr ⟨k', (Parquet.rowFormat n).header_append x found, same⟩
    | true =>
        obtain ⟨r', found, same⟩ := optionMap_ok.mp read
        exact optionMap_ok.mpr ⟨r', (Parquet.rowFormat n).item_append x found, same⟩
  next_error {s b e} x read := by
    cases s with
    | false => exact map_eq_error.mpr ((Parquet.rowFormat n).header_error x (map_eq_error.mp read))
    | true => exact map_eq_error.mpr ((Parquet.rowFormat n).item_error x (map_eq_error.mp read))

/-! ## Fields that decode -/

/-- A field decodes into a column of a kind. -/
def FieldOk (kind : ArrowKind) (f : Option Bytes) : Prop :=
  ∃ col, (ColB.new kind).decodeField 0 f = .ok col

/-- Every field of a tuple does. -/
def Decodes (kinds : List ArrowKind) (fields : List (Option Bytes)) : Prop :=
  ∀ (c : Nat) (kind : ArrowKind), kinds[c]? = some kind → FieldOk kind fields[c]?.join

theorem tryI32_ok_iff {n : Nat} : (∃ o, tryI32 n = .ok o) ↔ n ≤ 2 ^ 31 - 1 := by
  rw [tryI32]
  split
  · rename_i small
    exact ⟨fun _ => small, fun _ => ⟨_, rfl⟩⟩
  · rename_i large
    refine ⟨?_, fun small => absurd small large⟩
    rintro ⟨o, is⟩
    cases is

theorem tryI32_error {n : Nat} (is : tryI32 n = .error e) : e = .err pastOffsets := by
  rw [tryI32] at is
  split at is <;> cases is
  rfl

theorem ok_map_iff {ε α β : Type} {x : Except ε α} {f : α → β} :
    (∃ r, x.map f = .ok r) ↔ ∃ a, x = .ok a := by
  cases x <;> simp [Except.map]

theorem ok_orElse_map_iff {ε α β : Type} {x y : Except ε α} {f g : α → β} {bad : Prop}
    [Decidable bad] {e : ε} (same : (∃ a, x = .ok a) ↔ ∃ a, y = .ok a) :
    (∃ r, (if bad then .error e else x.map f) = Except.ok r) ↔
      ∃ r, (if bad then .error e else y.map g) = Except.ok r := by
  split
  · simp
  · exact ok_map_iff.trans (same.trans ok_map_iff.symm)

theorem decodes_or_not {x : Except (Stop Error) ColB} {f : Option Bytes}
    (same : (∃ col, x = .ok col) ↔ FieldOk kind f) :
    (∀ col, x = .ok col → FieldOk kind f) ∧
      ∀ e, x = .error e → e = .err pastOffsets ∨ ¬ FieldOk kind f := by
  refine ⟨fun col is => same.mp ⟨col, is⟩, ?_⟩
  intro e is
  right
  intro ok
  obtain ⟨col, is'⟩ := same.mpr ok
  rw [is] at is'
  cases is'

/-- A field of bytes decodes while the column addresses them. -/
theorem varlen_or_not {x : Except (Stop Error) ColB} {d f : Bytes} {g : Int → ColB}
    (is : x = (tryI32 (d ++ f).length).map g)
    (alone : FieldOk kind (some f) ↔ f.length ≤ 2 ^ 31 - 1) :
    (∀ col, x = .ok col → FieldOk kind (some f)) ∧
      ∀ e, x = .error e → e = .err pastOffsets ∨ ¬ FieldOk kind (some f) := by
  subst is
  constructor
  · intro col ok
    have small := tryI32_ok_iff.mp (ok_map_iff.mp ⟨col, ok⟩)
    rw [List.length_append] at small
    exact alone.mpr (by omega)
  · intro e wrong
    exact .inl (tryI32_error (map_eq_error.mp wrong))

/-- A field that decodes behind some cells decodes alone; one that does not does not alone, or is
past what a column addresses. -/
theorem decodeField_cases (kind : ArrowKind) (cells : List CellVal) (r : Nat)
    (f : Option Bytes) :
    (∀ col, (colOf cells kind).decodeField r f = .ok col → FieldOk kind f) ∧
      ∀ e, (colOf cells kind).decodeField r f = .error e →
        e = .err pastOffsets ∨ ¬ FieldOk kind f := by
  cases f with
  | none =>
      apply decodes_or_not
      cases kind <;> exact iff_of_true ⟨_, rfl⟩ ⟨_, rfl⟩
  | some f =>
      cases kind with
      | utf8 =>
          refine varlen_or_not rfl (ok_map_iff.trans ?_)
          exact tryI32_ok_iff
      | binary =>
          refine varlen_or_not rfl (ok_map_iff.trans ?_)
          exact tryI32_ok_iff
      | bool => exact decodes_or_not (iff_of_true ⟨_, rfl⟩ ⟨_, rfl⟩)
      | date32 | timestampUtc | timestampNaive =>
          apply decodes_or_not
          simp only [FieldOk, colOf, ColB.new, ColB.decodeField]
          cases Parquet.sized _ _ f with
          | error e => simp [Except.bind]
          | ok g => exact ok_orElse_map_iff Iff.rfl
      | _ => exact decodes_or_not (ok_map_iff.trans ok_map_iff.symm)

/-- The fields of a column. -/
theorem decodeFields_cases (kind : ArrowKind) (cells : List CellVal) (fs : List (Option Bytes)) :
    (∀ col, (colOf cells kind).decodeFields cells.length fs = .ok col →
      ∀ f ∈ fs, FieldOk kind f) ∧
      ∀ e, (colOf cells kind).decodeFields cells.length fs = .error e →
        e = .err pastOffsets ∨ ∃ f ∈ fs, ¬ FieldOk kind f := by
  induction fs generalizing cells with
  | nil =>
      constructor
      · intro col _ f mem
        cases mem
      · intro e wrong
        cases wrong
  | cons f fs ih =>
      have one := decodeField_cases kind cells cells.length f
      have len : (cells ++ [value kind f]).length = cells.length + 1 := List.length_append
      constructor
      · intro col is
        obtain ⟨col₁, first, rest⟩ := bind_eq_ok.mp is
        have ok := one.1 col₁ first
        rw [decodeField_colOf first, ← len] at rest
        exact List.forall_mem_cons.mpr ⟨ok, (ih _).1 col rest⟩
      · intro e wrong
        obtain first | ⟨col₁, first, rest⟩ := bind_eq_error.mp wrong
        · apply (one.2 e first).imp_right
          intro bad
          exact ⟨f, List.mem_cons_self, bad⟩
        · rw [decodeField_colOf first, ← len] at rest
          apply ((ih _).2 e rest).imp_right
          rintro ⟨g, mem, bad⟩
          exact ⟨g, List.mem_cons_of_mem _ mem, bad⟩

/-- The builder but for its columns and rows. -/
structure SameFrame (b b' : BatchBuilder) : Prop where
  batchBytes : b'.batchBytes = b.batchBytes
  varlenSeal : b'.varlenSeal = b.varlenSeal
  buf : b'.buf = b.buf
  inSpan : b'.inSpan = b.inSpan
  frLeft : b'.frLeft = b.frLeft

/-- Staged tuples decode one and all behind the rows there are, or one of them does not, or a
column is full. -/
theorem Holds.decodes {staged : List (List (Option Bytes))} (holds : Holds kinds b rows) :
    (∀ b', b.decodeStaged staged = .ok b' → SameFrame b b' ∧
      Holds kinds b' (rows ++ staged.map (rowOf kinds)) ∧ ∀ fs ∈ staged, Decodes kinds fs) ∧
      ∀ e, b.decodeStaged staged = .error e →
        e = .err pastOffsets ∨ ∃ fs ∈ staged, ¬ Decodes kinds fs := by
  have len (c : Nat) : (column rows c).length = b.rows := length_column.trans holds.count.symm
  constructor
  · intro b' is
    obtain ⟨cols, decoded, same⟩ := map_eq_ok.mp is
    have frame : SameFrame b b' := by
      subst same
      exact ⟨rfl, rfl, rfl, rfl, rfl⟩
    refine ⟨frame, holds.staged is, ?_⟩
    intro fs mem c kind here
    have from_ : b.cols.zipIdx[c]? = some (colOf (column rows c) kind, c) := by
      rw [List.getElem?_zipIdx, holds.col c kind here, Nat.zero_add]
      rfl
    obtain ⟨col, -, fields⟩ := (mapM_ok decoded).2 c _ from_
    dsimp only at fields
    rw [← len c] at fields
    exact (decodeFields_cases kind _ _).1 col fields _
      (List.mem_map_of_mem (f := fun row : List (Option Bytes) => row[c]?.join) mem)
  · intro e wrong
    obtain ⟨c, ⟨col, c'⟩, at_, fields⟩ := mapM_error (map_eq_error.mp wrong)
    rw [List.getElem?_zipIdx, Option.map_eq_some_iff] at at_
    obtain ⟨col', here, same⟩ := at_
    rw [Nat.zero_add] at same
    cases same
    have within : c < kinds.length := holds.cols ▸ (List.getElem?_eq_some_iff.mp here).1
    have kind_is := List.getElem?_eq_getElem within
    rw [holds.col c _ kind_is] at here
    cases here
    dsimp only at fields
    rw [← len c] at fields
    apply ((decodeFields_cases _ _ _).2 e fields).imp_right
    rintro ⟨f, mem, bad⟩
    obtain ⟨fs, mem', rfl⟩ := List.mem_map.mp mem
    exact ⟨fs, mem', fun ok => bad (ok c _ kind_is)⟩

/-! ## What is staged -/

theorem length_region (within : fin ≤ data.length) :
    ((data.take fin).drop o).length = fin - o := by
  rw [List.length_drop, List.length_take, Nat.min_eq_left within]

/-- The front of a region is the data's there. -/
theorem region_take {k : Nat} (room : o + k ≤ fin) :
    ((data.take fin).drop o).take k = (data.drop o).take k := by
  rw [List.drop_take, List.take_take, Nat.min_eq_left (by omega)]

theorem region_drop {k : Nat} : ((data.take fin).drop o).drop k = (data.take fin).drop (o + k) :=
  List.drop_drop

/-- Staged fields are those of a raw tuple, and can be read at their places. -/
theorem stageFields_cases (within : fin ≤ data.length) (inside : o ≤ fin) :
    (∀ e, stageFields data fin n o = .error e →
      e = .err pastWindow ∨ rawFields n ((data.take fin).drop o) = .error e) ∧
      (stageFields data fin n o = .ok none → rawFields n ((data.take fin).drop o) = .ok none) ∧
      ∀ row o', stageFields data fin n o = .ok (some (row, o')) →
        o ≤ o' ∧ o' ≤ fin ∧ ∃ fs, rawFields n ((data.take fin).drop o) = .ok (some (o' - o, fs)) ∧
          row.mapM (readField data) = .ok fs := by
  induction n generalizing o with
  | zero =>
      refine ⟨?_, ?_, ?_⟩
      · intro e wrong
        cases wrong
      · intro none
        cases none
      · intro row o' is
        cases is
        refine ⟨Nat.le_refl _, inside, [], ?_, rfl⟩
        rw [Nat.sub_self]
        rfl
  | succ n ih =>
      have len := length_region (o := o) within
      rw [stageFields, rawFields]
      by_cases short : fin - o < 4
      · have shorter : ((data.take fin).drop o).length < 4 := by omega
        rw [if_pos short, if_pos shorter]
        refine ⟨?_, fun _ => rfl, ?_⟩
        · intro e wrong
          cases wrong
        · intro row o' is
          cases is
      · have longer : ¬ ((data.take fin).drop o).length < 4 := by omega
        rw [if_neg short, if_neg longer, region_take (by omega)]
        generalize fromBeInt ((data.drop o).take 4) = width
        dsimp only
        by_cases bad : width < -1
        · rw [if_pos bad, if_pos bad]
          refine ⟨fun e wrong => .inr (by cases wrong; rfl), ?_, ?_⟩
          · intro none
            cases none
          · intro row o' is
            cases is
        · rw [if_neg bad, if_neg bad]
          by_cases null : width = -1
          · have zero : width.toNat = 0 := by omega
            have room : ¬ ((data.take fin).drop o).length < 4 + 0 := longer
            rw [if_pos null, if_pos null, zero, if_neg room, region_drop]
            obtain ⟨refuses, short, whole⟩ := ih (o := o + 4) (by omega)
            refine ⟨?_, ?_, ?_⟩
            · intro e wrong
              exact (refuses e (map_eq_error.mp wrong)).imp_right map_eq_error.mpr
            · intro none
              exact optionMap_none.mpr (short (optionMap_none.mp none))
            · intro row o' is
              obtain ⟨⟨row', last⟩, later, same⟩ := optionMap_ok.mp is
              cases same
              obtain ⟨from_, upto, fs, raw, reads⟩ := whole row' last later
              refine ⟨by omega, upto, none :: fs, ?_, mapM_cons_ok.mpr ⟨_, _, rfl, reads, rfl⟩⟩
              apply optionMap_ok.mpr
              refine ⟨_, raw, ?_⟩
              have same : 4 + 0 + (last - (o + 4)) = last - o := by omega
              simp only [same]
          · rw [if_neg null, if_neg null]
            have width_is : (width.toNat : Int) = width := Int.toNat_of_nonneg (by omega)
            by_cases beyond : fin - (o + 4) < width.toNat
            · have past : ((data.take fin).drop o).length < 4 + width.toNat := by omega
              rw [if_pos beyond, if_pos past]
              refine ⟨?_, fun _ => rfl, ?_⟩
              · intro e wrong
                cases wrong
              · intro row o' is
                cases is
            · have room : ¬ ((data.take fin).drop o).length < 4 + width.toNat := by omega
              rw [if_neg beyond, if_neg room, region_drop, region_drop, stageOff]
              by_cases addressed : o + 4 < 2 ^ 32
              · rw [if_pos addressed, Stop.ok_bind, ← Nat.add_assoc]
                obtain ⟨refuses, short, whole⟩ := ih (o := o + 4 + width.toNat) (by omega)
                refine ⟨?_, ?_, ?_⟩
                · intro e wrong
                  exact (refuses e (map_eq_error.mp wrong)).imp_right map_eq_error.mpr
                · intro none
                  exact optionMap_none.mpr (short (optionMap_none.mp none))
                · intro row o' is
                  obtain ⟨⟨row', last⟩, later, same⟩ := optionMap_ok.mp is
                  cases same
                  obtain ⟨from_, upto, fs, raw, reads⟩ := whole row' last later
                  have field : readField data (some (o + 4, width.toNat)) =
                      .ok (some (((data.take fin).drop (o + 4)).take width.toNat)) := by
                    rw [region_take (by omega)]
                    have room : o + 4 + width.toNat ≤ data.length := by omega
                    rw [readField, Parquet.sub_eq room]
                    rfl
                  refine ⟨by omega, upto, _ :: fs, ?_, mapM_cons_ok.mpr ⟨_, _, field, reads, rfl⟩⟩
                  apply optionMap_ok.mpr
                  refine ⟨_, raw, ?_⟩
                  have same : 4 + width.toNat + (last - (o + 4 + width.toNat)) = last - o := by
                    omega
                  simp only [same]
              · rw [if_neg addressed]
                refine ⟨?_, ?_, ?_⟩
                · intro e wrong
                  cases wrong
                  exact .inl rfl
                · intro none
                  cases none
                · intro row o' is
                  cases is

/-- What is said of the tuple at a place is said of the bytes there. -/
theorem stageOne_cases (ncols pos : Nat) (within : fin ≤ data.length) (inside : pos ≤ fin) :
    (∀ e, stageOne ncols data fin pos = .error e →
      e = .err pastWindow ∨ (spans ncols).next true ((data.take fin).drop pos) = .error e) ∧
      (stageOne ncols data fin pos = .ok none →
        (spans ncols).next true ((data.take fin).drop pos) = .ok none) ∧
      (stageOne ncols data fin pos = .ok (some none) → pos + 2 ≤ fin ∧
        (spans ncols).next true ((data.take fin).drop pos) = .ok (some (2, false, none))) ∧
      ∀ row o', stageOne ncols data fin pos = .ok (some (some (row, o'))) →
        pos + 2 ≤ o' ∧ o' ≤ fin ∧ ∃ fs, (spans ncols).next true ((data.take fin).drop pos) =
          .ok (some (o' - pos, true, some fs)) ∧ row.mapM (readField data) = .ok fs := by
  have len := length_region (o := pos) within
  show (∀ e, _ → _ ∨ spanNext ncols true _ = _) ∧ (_ → spanNext ncols true _ = _) ∧
    (_ → _ ∧ spanNext ncols true _ = _) ∧
      ∀ row o', _ → _ ∧ _ ∧ ∃ fs, spanNext ncols true _ = _ ∧ _
  rw [spanNext_in, stageOne, rawTuple]
  by_cases short : fin - pos < 2
  · have shorter : ((data.take fin).drop pos).length < 2 := by omega
    rw [if_pos short, if_pos shorter]
    refine ⟨?_, fun _ => rfl, ?_, ?_⟩
    · intro e wrong
      cases wrong
    · intro none
      cases none
    · intro row o' is
      cases is
  · have longer : ¬ ((data.take fin).drop pos).length < 2 := by omega
    rw [if_neg short, if_neg longer, region_take (by omega)]
    generalize fromBeInt ((data.drop pos).take 2) = nc
    dsimp only
    by_cases last : nc = -1
    · rw [if_pos last, if_pos last]
      refine ⟨?_, ?_, fun _ => ⟨by omega, rfl⟩, ?_⟩
      · intro e wrong
        cases wrong
      · intro none
        cases none
      · intro row o' is
        cases is
    · rw [if_neg last, if_neg last]
      by_cases arity : nc ≠ ncols
      · rw [if_pos arity, if_pos arity]
        refine ⟨fun e wrong => .inr (by cases wrong; rfl), ?_, ?_, ?_⟩
        · intro none
          cases none
        · intro none
          cases none
        · intro row o' is
          cases is
      · rw [if_neg arity, if_neg arity, region_drop]
        obtain ⟨refuses, short, whole⟩ :=
          stageFields_cases (n := ncols) (o := pos + 2) within (by omega)
        refine ⟨?_, ?_, ?_, ?_⟩
        · intro e wrong
          apply (refuses e (map_eq_error.mp wrong)).imp_right
          intro raw
          exact map_eq_error.mpr (map_eq_error.mpr raw)
        · intro none
          exact optionMap_none.mpr (optionMap_none.mpr (short (optionMap_none.mp none)))
        · intro none
          obtain ⟨r, -, same⟩ := optionMap_ok.mp none
          cases same
        · intro row o' is
          obtain ⟨⟨row', place⟩, later, same⟩ := optionMap_ok.mp is
          obtain ⟨rfl, rfl⟩ := Prod.mk.inj (Option.some.inj same)
          obtain ⟨from_, upto, fs, raw, reads⟩ := whole row' place later
          refine ⟨from_, upto, fs, ?_, reads⟩
          refine optionMap_ok.mpr ⟨_, optionMap_ok.mpr ⟨_, raw, rfl⟩, ?_⟩
          have same : 2 + (place - (pos + 2)) = place - pos := by omega
          simp only [same, Option.isSome_some]

end Apitap.Arrow
