import Apitap.Wire.ParquetRows
import Apitap.Wire.Transcoders

/-!
# The Parquet encoder's framing

What the encoder reads as a format: a header, tuples of raw fields, the trailer. Its two
passes over a tuple come to one reading of the raw fields and one decoding of them.
-/

namespace Apitap.Parquet

open Foundation
open Levels (shred)
open Copy (fromBeInt Stays stays_none stays_error be length_be field Row)
open Mysource (Text)

/-! ## Raw tuples -/

/-- The fields at the start of `b` and the bytes they take; nothing where one is not whole. -/
def rawFields : Nat → Bytes → Except (Stop Error) (Option (Nat × List (Option Bytes)))
  | 0, _ => .ok (some (0, []))
  | n + 1, b =>
      if b.length < 4 then .ok none
      else
        let len := fromBeInt (b.take 4)
        if len < -1 then .error (.err (corrupt len))
        else if b.length < 4 + len.toNat then .ok none
        else
          (rawFields n (b.drop (4 + len.toNat))).map (Option.map fun r =>
            (4 + len.toNat + r.1,
              (if len = -1 then none else some ((b.drop 4).take len.toNat)) :: r.2))

/-- One whole tuple's fields, or the trailer. -/
def rawTuple (n : Nat) (b : Bytes) :
    Except (Stop Error) (Option (Nat × Option (List (Option Bytes)))) :=
  if b.length < 2 then .ok none
  else
    let ncols := fromBeInt (b.take 2)
    if ncols = -1 then .ok (some (2, none))
    else if ncols ≠ n then .error (.err (wrongCount ncols n))
    else (rawFields n (b.drop 2)).map (Option.map fun r => (2 + r.1, some r.2))

theorem length_rawFields {n k : Nat} {b : Bytes} {fs : List (Option Bytes)}
    (found : rawFields n b = .ok (some (k, fs))) : fs.length = n := by
  induction n generalizing b k fs with
  | zero =>
      cases found
      rfl
  | succ n ih =>
      rw [rawFields] at found
      split at found
      · cases found
      · dsimp only at found
        split at found
        · cases found
        · split at found
          · cases found
          · obtain ⟨more, later, is⟩ := map_eq_ok.mp found
            obtain ⟨⟨k', fs'⟩, rfl, same⟩ := Option.map_eq_some_iff.mp is
            obtain ⟨-, rfl⟩ := Prod.mk.inj same
            exact congrArg Nat.succ (ih later)

theorem length_rawTuple {n k : Nat} {b : Bytes} {fs : List (Option Bytes)}
    (found : rawTuple n b = .ok (some (k, some fs))) : fs.length = n := by
  rw [rawTuple] at found
  split at found
  · cases found
  · dsimp only at found
    split at found
    · cases found
    · split at found
      · cases found
      · obtain ⟨more, later, is⟩ := map_eq_ok.mp found
        obtain ⟨⟨k', fs'⟩, rfl, same⟩ := Option.map_eq_some_iff.mp is
        cases same
        exact length_rawFields later

theorem rawFields_stays (n : Nat) (b x : Bytes) :
    Stays b.length (rawFields n b) (rawFields n (b ++ x)) := by
  induction n generalizing b with
  | zero => exact ⟨fun r is => ⟨is, by cases is; exact Nat.zero_le _⟩, fun _ is => is⟩
  | succ n ih =>
      rw [rawFields, rawFields]
      by_cases short : b.length < 4
      · rw [if_pos short]
        exact stays_none
      · have four : 4 ≤ b.length := Nat.not_lt.mp short
        have len : (b ++ x).take 4 = b.take 4 := List.take_append_of_le_length four
        have longer : ¬ (b ++ x).length < 4 := by
          rw [List.length_append]
          omega
        rw [if_neg short, if_neg longer, len]
        dsimp only
        split
        · exact stays_error
        · split
          case isTrue => exact stays_none
          case isFalse whole =>
              have room : 4 + (fromBeInt (b.take 4)).toNat ≤ b.length := Nat.not_lt.mp whole
              have more : ¬ (b ++ x).length < 4 + (fromBeInt (b.take 4)).toNat := by
                rw [List.length_append]
                omega
              have same : ((b ++ x).drop 4).take (fromBeInt (b.take 4)).toNat =
                  (b.drop 4).take (fromBeInt (b.take 4)).toNat := by
                rw [List.drop_append_of_le_length four]
                exact List.take_append_of_le_length (by rw [List.length_drop]; omega)
              rw [if_neg more, same, List.drop_append_of_le_length room]
              refine (ih _).map fun k out le => ?_
              rw [List.length_drop] at le
              simp only
              omega

theorem rawTuple_stays (n : Nat) (b x : Bytes) :
    Stays b.length (rawTuple n b) (rawTuple n (b ++ x)) := by
  rw [rawTuple, rawTuple]
  by_cases short : b.length < 2
  · rw [if_pos short]
    exact stays_none
  · have two : 2 ≤ b.length := Nat.not_lt.mp short
    have longer : ¬ (b ++ x).length < 2 := by
      rw [List.length_append]
      omega
    rw [if_neg short, if_neg longer, List.take_append_of_le_length two,
      List.drop_append_of_le_length two]
    dsimp only
    split
    · exact ⟨fun r is => ⟨is, by cases is; exact two⟩, fun _ is => is⟩
    · split
      · exact stays_error
      · refine (rawFields_stays n (b.drop 2) x).map fun k out le => ?_
        rw [List.length_drop] at le
        simp only
        omega

/-- A tuple takes its field count at least. -/
theorem rawTuple_pos {n : Nat} {b : Bytes} {r : Nat × Option (List (Option Bytes))}
    (found : rawTuple n b = .ok (some r)) : 0 < r.1 := by
  rw [rawTuple] at found
  split at found
  · cases found
  · dsimp only at found
    split at found
    · cases found
      decide
    · split at found
      · cases found
      · obtain ⟨more, -, is⟩ := map_eq_ok.mp found
        obtain ⟨⟨k, fs⟩, -, rfl⟩ := Option.map_eq_some_iff.mp is
        exact Nat.lt_of_lt_of_le (by decide) (Nat.le_add_right 2 k)

/-- A dialect that takes any header extension. -/
def unbounded : Copy.Dialect (Copy.RbType × Bool) := Copy.rowBinary (fun _ _ => []) 0

/-- The header is read as a transcoder without a bound on extensions reads it. -/
theorem header_eq (b : Bytes) : Encoder.header b = (Copy.format unbounded []).header b := rfl

/-- What the encoder reads. -/
def rowFormat (n : Nat) : Format (Stop Error) UInt8 (List (Option Bytes)) where
  header := Encoder.header
  item := rawTuple n
  header_nil := rfl
  header_le found := (Copy.format unbounded []).header_le found
  header_append x found := (Copy.format unbounded []).header_append x found
  header_error x bad := (Copy.format unbounded []).header_error x bad
  item_nil := rfl
  item_le found := ⟨rawTuple_pos found, ((rawTuple_stays n _ []).1 _ found).2⟩
  item_append x found := ((rawTuple_stays n _ x).1 _ found).1
  item_error x bad := (rawTuple_stays n _ x).2 _ bad

/-! ## The encoder reads raw tuples -/

theorem sub_eq {b : Bytes} {o n : Nat} (within : o + n ≤ b.length) :
    sub b o n = .ok ((b.drop o).take n) := if_pos within

theorem walk_eq (b : Bytes) (n off : Nat) :
    walk b n off = (rawFields n (b.drop off)).map (Option.map fun r => off + r.1) := by
  induction n generalizing off with
  | zero => rfl
  | succ n ih =>
      have left : (b.drop off).length = b.length - off := List.length_drop
      rw [walk, rawFields]
      by_cases short : b.length < off + 4
      · rw [if_pos short, if_pos (by omega)]
        rfl
      · rw [if_neg short, if_neg (by omega), sub_eq (by omega), Stop.ok_bind]
        dsimp only
        generalize len_is : fromBeInt ((b.drop off).take 4) = len
        by_cases bad : len < -1
        · rw [if_pos bad, if_pos bad]
          rfl
        · rw [if_neg bad, if_neg bad]
          have drops : (b.drop off).drop (4 + len.toNat) = b.drop (off + 4 + len.toNat) := by
            rw [List.drop_drop, Nat.add_assoc]
          have step : walk b n (off + 4 + len.toNat) =
              ((rawFields n ((b.drop off).drop (4 + len.toNat))).map (Option.map fun r =>
                (4 + len.toNat + r.1, (if len = -1 then none
                  else some (((b.drop off).drop 4).take len.toNat)) :: r.2))).map
                (Option.map fun r => off + r.1) := by
            rw [ih, drops]
            cases rawFields n (b.drop (off + 4 + len.toNat)) with
            | error e => rfl
            | ok found =>
                cases found with
                | none => rfl
                | some r => simp only [Except.map, Option.map_some, Nat.add_assoc]
          by_cases positive : 0 < len
          · rw [if_pos positive]
            by_cases beyond : b.length < off + 4 + len.toNat
            · rw [if_pos beyond, if_pos (by omega)]
              rfl
            · rw [if_neg beyond, if_neg (by omega)]
              exact step
          · have zero : len.toNat = 0 := by omega
            rw [if_neg positive, if_neg (by omega), ← step, zero]

variable {cfg : Config}

theorem decode_eq {b : Bytes} {o k : Nat} {cols : List Column} {fs : List (Option Bytes)}
    (i : Nat) (wm : Option Text) (found : rawFields cols.length (b.drop o) = .ok (some (k, fs))) :
    cfg.decode b i cols wm o = cfg.fields i cols wm fs := by
  induction cols generalizing i o k wm fs with
  | nil =>
      cases found
      rfl
  | cons c cs ih =>
      have left : (b.drop o).length = b.length - o := List.length_drop
      rw [List.length_cons, rawFields] at found
      split at found
      · cases found
      case isFalse long =>
          dsimp only at found
          split at found
          · cases found
          · split at found
            · cases found
            case isFalse whole =>
                obtain ⟨more, later, is⟩ := map_eq_ok.mp found
                obtain ⟨⟨k', fs'⟩, rfl, same⟩ := Option.map_eq_some_iff.mp is
                obtain ⟨-, rfl⟩ := Prod.mk.inj same
                rw [List.drop_drop, ← Nat.add_assoc] at later
                have rest (i : Nat) (wm : Option Text) := ih i wm later
                rw [Config.decode, Config.fields, fieldAt, sub_eq (by omega), Stop.ok_bind]
                dsimp only
                split
                case isTrue is_null =>
                    rw [Stop.ok_bind]
                    have none : (fromBeInt ((b.drop o).take 4)).toNat = 0 := by
                      rw [is_null]
                      rfl
                    rw [none] at rest
                    simp only [Nat.add_zero] at rest
                    simp only [rest]
                case isFalse =>
                    rw [sub_eq (by omega), Except.map, Stop.ok_bind, ← List.drop_drop]
                    simp only [rest]

/-- A raw tuple, decoded into the builders. -/
def Builders.takes (cfg : Config) (s : Builders) :
    Option (Nat × Option (List (Option Bytes))) →
      Except (Stop Error) (Option (Nat × Option Builders))
  | none => .ok none
  | some (n, none) => .ok (some (n, none))
  | some (n, some fs) => (cfg.fields 0 s.cols s.wm fs).map fun row =>
      some (n, some { s with
        cols := row.1, groupBytes := s.groupBytes + row.2.1, wm := row.2.2 })

theorem tryTuple_eq (cfg : Config) (s : Builders) (b : Bytes) :
    s.tryTuple cfg b = (rawTuple s.cols.length b).bind (s.takes cfg) := by
  rw [Builders.tryTuple, rawTuple]
  by_cases short : b.length < 2
  · rw [if_pos short, if_pos short]
    rfl
  · rw [if_neg short, if_neg short]
    dsimp only
    by_cases last : fromBeInt (b.take 2) = -1
    · rw [if_pos last, if_pos last]
      rfl
    · rw [if_neg last, if_neg last]
      by_cases arity : fromBeInt (b.take 2) ≠ s.cols.length
      · rw [if_pos arity, if_pos arity]
        rfl
      · rw [if_neg arity, if_neg arity, walk_eq]
        cases found : rawFields s.cols.length (b.drop 2) with
        | error e => rfl
        | ok got =>
            cases got with
            | none => rfl
            | some r =>
                obtain ⟨k, fs⟩ := r
                exact congrArg (Except.map _) (decode_eq 0 s.wm found)

/-! ## Tuples as they are written -/

/-- A row's fields, where it has as many as there are columns. -/
def tupleFields (n : Nat) (r : Row) : Except (Stop Error) (List (Option Bytes)) :=
  if (r.fields.length : Int) ≠ n then .error (.err (wrongCount r.fields.length n))
  else .ok r.fields

theorem rawFields_row {fields : List (Option Bytes)} (x : Bytes)
    (lengths : ∀ v, some v ∈ fields → v.length < 2 ^ 31) :
    rawFields fields.length (fields.flatMap field ++ x) =
      .ok (some ((fields.flatMap field).length, fields)) := by
  induction fields with
  | nil => rfl
  | cons v fields ih =>
      have rest := ih fun v v_mem => lengths v (List.mem_cons_of_mem _ v_mem)
      have word := Copy.field_word (fields.flatMap field ++ x) fun b is =>
        lengths b (is ▸ List.mem_cons_self)
      have after := Copy.drop_field (fields.flatMap field ++ x) v
      have len := Copy.length_field v
      have long := Copy.field_long (fields.flatMap field ++ x) v
      rw [List.flatMap_cons, List.append_assoc, List.length_cons, rawFields, if_neg long, word]
      cases v with
      | none =>
          rw [Option.elim_none, Nat.add_zero] at after len
          simp only [Option.elim_none, Int.reduceNeg, Int.reduceToNat, Nat.add_zero, lt_irrefl,
            ↓reduceIte, after, rest, if_neg long]
          simp only [Except.map, Option.map_some, List.length_append, len]
      | some v =>
          rw [Option.elim_some] at after len
          have room : ¬ (field (some v) ++ (fields.flatMap field ++ x)).length <
              4 + v.length := by
            rw [List.length_append]
            omega
          have valid : ¬ (v.length : Int) < -1 := by omega
          have there : ¬ (v.length : Int) = -1 := by omega
          simp only [Option.elim_some, if_neg valid, Int.toNat_natCast, if_neg room, if_neg there,
            after, Copy.field_value, rest]
          simp only [Except.map, Option.map_some, List.length_append, len]

theorem rowFormat_writes (n : Nat) :
    (rowFormat n).Writes Row.bytes (tupleFields n) Copy.trailer where
  item r x := by
    have count : ¬ (r.fields.length : Int) = -1 := by omega
    show rawTuple n (r.bytes ++ x) = _
    rw [rawTuple, if_neg (r.long x), r.count_word]
    simp only [if_neg count, r.drop_count, tupleFields]
    by_cases same : (r.fields.length : Int) = n
    · obtain rfl : r.fields.length = n := Int.ofNat.inj same
      rw [if_neg (not_not.mpr rfl), if_neg (not_not.mpr rfl), rawFields_row x r.field_lt]
      simp only [Except.map, Option.map_some, r.length_bytes]
    · rw [if_pos same, if_pos same]
      rfl
  stop := by
    have long : ¬ Copy.trailer.length < 2 := by decide
    have front : Copy.trailer.take 2 = Copy.trailer := rfl
    rw [rowFormat]
    simp only [rawTuple, if_neg long, front, Copy.fromBeInt_trailer, if_true]
    rfl

/-- A header is taken whole. -/
theorem header_taken (n : Nat) (h : Copy.Header) :
    (rowFormat n).header h.bytes = .ok (some h.bytes.length) :=
  (header_eq h.bytes).trans (Copy.header_bytes [] rfl)

end Apitap.Parquet
