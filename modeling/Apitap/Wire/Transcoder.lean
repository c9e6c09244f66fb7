import Apitap.Wire.Carry
import Apitap.Wire.RowBinary

/-!
# The two transcoders

A tuple is tried from its field count on: a field at a time, NULL by its length word, the
value through the column's conversion. What differs between the two transcoders is what they
write for NULL, between fields and after a tuple, their conversions and their refusals, and
that the second one refuses a large header extension.
-/

namespace Apitap.Copy

open Foundation

/-- What a transcoder writes for a tuple's parts, and how it refuses them. -/
structure Dialect (γ : Type) where
  between : Bytes
  close : Bytes
  null : γ → Except (Stop Error) Bytes
  value : γ → Bytes → Except (Stop Error) Bytes
  negative : γ → Int → Error
  large : γ → Nat → Error
  /-- The largest field this process buffers. -/
  maxField : Nat
  ext : Nat → Option Error

variable {γ : Type} (D : Dialect γ)

/-- A tuple's fields from `b` on: the bytes taken and the output, or too few bytes. -/
def tryFields (first : Bool) :
    List γ → Bytes → Except (Stop Error) (Option (Nat × Bytes))
  | [], _ => .ok (some (0, []))
  | c :: cols, b =>
      let lead := if first then [] else D.between
      if b.length < 4 then .ok none
      else
        let len := fromBeInt (b.take 4)
        if len = -1 then
          (D.null c).bind fun out => (tryFields false cols (b.drop 4)).map
            (Option.map fun (n, more) => (4 + n, lead ++ out ++ more))
        else if len < 0 then .error (.err (D.negative c len))
        else if D.maxField < len.toNat then .error (.err (D.large c len.toNat))
        else if b.length < 4 + len.toNat then .ok none
        else
          (D.value c ((b.drop 4).take len.toNat)).bind fun out =>
            (tryFields false cols (b.drop (4 + len.toNat))).map
              (Option.map fun (n, more) => (4 + len.toNat + n, lead ++ out ++ more))

/-- One complete tuple from the start of `b`, or the trailer. -/
def tryTupleAt (cols : List γ) (b : Bytes) :
    Except (Stop Error) (Option (Nat × Option Bytes)) :=
  if b.length < 2 then .ok none
  else
    let ncols := fromBeInt (b.take 2)
    if ncols = -1 then .ok (some (2, none))
    else if ncols ≠ cols.length then
      .error (.err (.transfer ("pg binary COPY: tuple has " ++ toString ncols ++
        " fields, expected " ++ toString cols.length)))
    else
      (tryFields D true cols (b.drop 2)).map
        (Option.map fun (n, out) => (2 + n, some (out ++ D.close)))

/-- The header and its extension. -/
def tryHeader (b : Bytes) : Except (Stop Error) (Option Nat) :=
  if b.length < 19 then .ok none
  else if b.take 11 ≠ signature then .error (.err (.transfer "pg binary COPY: bad header"))
  else
    let ext := fromBe ((b.drop 15).take 4)
    match D.ext ext with
    | some e => .error (.err e)
    | none => if b.length < 19 + ext then .ok none else .ok (some (19 + ext))

/-! ## A decision stands for longer input -/

variable {D}

/-- What is decided on a word of a length, and stays so: taken within it, or refused. -/
def Stays {α : Type} (len : Nat) (a a' : Except (Stop Error) (Option (Nat × α))) : Prop :=
  (∀ r, a = .ok (some r) → a' = .ok (some r) ∧ r.1 ≤ len) ∧ ∀ e, a = .error e → a' = .error e

theorem stays_none {α : Type} {len : Nat} {a : Except (Stop Error) (Option (Nat × α))} :
    Stays len (.ok none) a :=
  ⟨fun _ no => (nomatch no), fun _ no => (nomatch no)⟩

theorem stays_error {α : Type} {len : Nat} {e : Stop Error} :
    Stays (α := α) len (.error e) (.error e) :=
  ⟨fun _ no => (nomatch no), fun _ is => is⟩

theorem Stays.map {α β : Type} {len len' : Nat} {a a' : Except (Stop Error) (Option (Nat × α))}
    {f : Nat × α → Nat × β} (stays : Stays len a a')
    (within : ∀ n out, n ≤ len → (f (n, out)).1 ≤ len') :
    Stays len' (a.map (Option.map f)) (a'.map (Option.map f)) := by
  match a with
  | .error e =>
      rw [stays.2 e rfl]
      exact stays_error
  | .ok none => exact stays_none
  | .ok (some (n, out)) =>
      obtain ⟨same, le⟩ := stays.1 _ rfl
      rw [same]
      refine ⟨fun r is => ⟨is, ?_⟩, fun _ no => nomatch no⟩
      obtain rfl : f (n, out) = r := Option.some.inj (Except.ok.inj is)
      exact within n out le

theorem tryFields_stays (first : Bool) (cols : List γ) (b x : Bytes) :
    Stays b.length (tryFields D first cols b)
      (tryFields D first cols (b ++ x)) := by
  induction cols generalizing first b with
  | nil => exact ⟨fun r is => ⟨is, by cases is; exact Nat.zero_le _⟩, fun _ is => is⟩
  | cons c cols ih =>
      rw [tryFields, tryFields]
      by_cases short : b.length < 4
      · rw [if_pos short]
        exact stays_none
      · have four : 4 ≤ b.length := Nat.not_lt.mp short
        have len : (b ++ x).take 4 = b.take 4 := List.take_append_of_le_length four
        have longer : ¬ (b ++ x).length < 4 := by
          rw [List.length_append]
          omega
        rw [if_neg short, if_neg longer, len, List.drop_append_of_le_length four]
        simp only
        split
        case isTrue =>
            cases D.null c with
            | error e => exact stays_error
            | ok out =>
                refine (ih false (b.drop 4)).map fun n more le => ?_
                rw [List.length_drop] at le
                simp only
                omega
        case isFalse =>
            split
            · exact stays_error
            · split
              · exact stays_error
              · split
                case isTrue => exact stays_none
                case isFalse whole =>
                    have room : 4 + (fromBeInt (b.take 4)).toNat ≤ b.length := Nat.not_lt.mp whole
                    have more : ¬ (b ++ x).length < 4 + (fromBeInt (b.take 4)).toNat := by
                      rw [List.length_append]
                      omega
                    have same : (b.drop 4 ++ x).take (fromBeInt (b.take 4)).toNat =
                        (b.drop 4).take (fromBeInt (b.take 4)).toNat :=
                      List.take_append_of_le_length (by rw [List.length_drop]; omega)
                    rw [if_neg more, same, List.drop_append_of_le_length room]
                    cases D.value c ((b.drop 4).take (fromBeInt (b.take 4)).toNat) with
                    | error e => exact stays_error
                    | ok out =>
                        refine (ih false _).map fun n more le => ?_
                        rw [List.length_drop] at le
                        simp only
                        omega

theorem tryTupleAt_stays (cols : List γ) (b x : Bytes) :
    Stays b.length (tryTupleAt D cols b) (tryTupleAt D cols (b ++ x)) := by
  rw [tryTupleAt, tryTupleAt]
  by_cases short : b.length < 2
  · rw [if_pos short]
    exact stays_none
  · have two : 2 ≤ b.length := Nat.not_lt.mp short
    have longer : ¬ (b ++ x).length < 2 := by
      rw [List.length_append]
      omega
    rw [if_neg short, if_neg longer, List.take_append_of_le_length two,
      List.drop_append_of_le_length two]
    simp only
    split
    · exact ⟨fun r is => ⟨is, by cases is; exact two⟩, fun _ is => is⟩
    · split
      · exact stays_error
      · refine (tryFields_stays true cols (b.drop 2) x).map fun n out le => ?_
        rw [List.length_drop] at le
        simp only
        omega

/-- A tuple takes its field count at least. -/
theorem tryTupleAt_pos {cols : List γ} {b : Bytes} {r : Nat × Option Bytes}
    (found : tryTupleAt D cols b = .ok (some r)) : 0 < r.1 := by
  rw [tryTupleAt] at found
  split at found
  · cases found
  · dsimp only at found
    split at found
    · cases found
      decide
    · split at found
      · cases found
      · cases fields : tryFields D true cols (b.drop 2) with
        | error e =>
            rw [fields] at found
            cases found
        | ok got =>
            rw [fields] at found
            cases got with
            | none => cases found
            | some got =>
                cases found
                exact Nat.lt_of_lt_of_le (by decide) (Nat.le_add_right 2 _)

theorem tryHeader_some {b : Bytes} {n : Nat} (found : tryHeader D b = .ok (some n)) :
    19 ≤ b.length ∧ n ≤ b.length := by
  rw [tryHeader] at found
  split at found
  · cases found
  · split at found
    · cases found
    · dsimp only at found
      split at found
      · cases found
      · split at found
        · cases found
        · cases found
          omega

theorem tryHeader_append {b : Bytes} (long : 19 ≤ b.length) (x : Bytes) :
    tryHeader D b = .ok none ∨ tryHeader D (b ++ x) = tryHeader D b := by
  have longer : ¬ (b ++ x).length < 19 := by
    rw [List.length_append]
    omega
  have sign : (b ++ x).take 11 = b.take 11 := List.take_append_of_le_length (by omega)
  have ext : ((b ++ x).drop 15).take 4 = (b.drop 15).take 4 := by
    rw [List.drop_append_of_le_length (by omega),
      List.take_append_of_le_length (by rw [List.length_drop]; omega)]
  rw [tryHeader, tryHeader, if_neg longer, if_neg (Nat.not_lt.mpr long), sign, ext]
  split
  · exact .inr rfl
  · dsimp only
    split
    · exact .inr rfl
    · split
      case isTrue => exact .inl rfl
      case isFalse room =>
          rw [if_neg (by rw [List.length_append]; omega)]
          exact .inr rfl

theorem tryHeader_error_long {b : Bytes} {e : Stop Error} (bad : tryHeader D b = .error e) :
    19 ≤ b.length := by
  rw [tryHeader] at bad
  split at bad
  · cases bad
  · omega

/-- The format a transcoder reads. -/
def format (D : Dialect γ) (cols : List γ) : Format (Stop Error) UInt8 Bytes where
  header := tryHeader D
  item := tryTupleAt D cols
  header_nil := rfl
  header_le found := (tryHeader_some found).2
  header_append x found := by
    rcases tryHeader_append (tryHeader_some found).1 x with none | same
    · rw [found] at none
      cases none
    · rw [same, found]
  header_error x bad := by
    rcases tryHeader_append (tryHeader_error_long bad) x with none | same
    · rw [bad] at none
      cases none
    · rw [same, bad]
  item_nil := rfl
  item_le found := ⟨tryTupleAt_pos found, ((tryTupleAt_stays cols _ []).1 _ found).2⟩
  item_append x found := ((tryTupleAt_stays cols _ x).1 _ found).1
  item_error x bad := (tryTupleAt_stays cols _ x).2 _ bad

/-! ## A row, as it is written and as it is encoded -/

variable (D) in
/-- One field's encoding. -/
def encodeField (c : γ) : Option Bytes → Except (Stop Error) Bytes
  | none => D.null c
  | some v => if D.maxField < v.length then .error (.err (D.large c v.length)) else D.value c v

variable (D) in
def encodeFields (first : Bool) : List γ → List (Option Bytes) → Except (Stop Error) Bytes
  | c :: cols, v :: fields =>
      (encodeField D c v).bind fun out => (encodeFields false cols fields).map fun more =>
        (if first then [] else D.between) ++ out ++ more
  | _, _ => .ok []

variable (D) in
/-- A row's encoding, or why it is refused. -/
def encodeRow (cols : List γ) (r : Row) : Except (Stop Error) Bytes :=
  if (r.fields.length : Int) ≠ cols.length then
    .error (.err (.transfer ("pg binary COPY: tuple has " ++ toString (r.fields.length : Int) ++
      " fields, expected " ++ toString cols.length)))
  else (encodeFields D true cols r.fields).map (· ++ D.close)

theorem fromBeInt_be {w n : Nat} (small : n * 2 < 256 ^ w) : fromBeInt (be w n) = n := by
  rw [fromBeInt, length_be, fromBe_be (by omega)]
  exact Int.bmod_eq_of_le_mul_two (by omega) (by exact_mod_cast Int.ofNat_lt.mpr small)

theorem fromBeInt_null : fromBeInt [0xFF, 0xFF, 0xFF, 0xFF] = -1 := by decide +kernel

theorem fromBeInt_trailer : fromBeInt trailer = -1 := by decide +kernel

/-! ### Rows as they are written -/

section Written

variable {v : Option Bytes} {w n : Nat} (y : Bytes)

theorem take_be : (be w n ++ y).take w = be w n := by
  rw [List.take_append_of_le_length length_be.ge, List.take_of_length_le length_be.le]

theorem drop_be : (be w n ++ y).drop w = y := by
  rw [List.drop_append_of_le_length length_be.ge, List.drop_of_length_le length_be.le,
    List.nil_append]

theorem length_field (v : Option Bytes) : (field v).length = 4 + v.elim 0 List.length := by
  cases v with
  | none => rfl
  | some b => rw [field, List.length_append, length_be, Option.elim_some]

theorem field_long (v : Option Bytes) : ¬ (field v ++ y).length < 4 := by
  rw [List.length_append, length_field]
  omega

/-- A field's length word; NULL's is −1. -/
theorem field_word (short : ∀ b, some b = v → b.length < 2 ^ 31) :
    fromBeInt ((field v ++ y).take 4) = v.elim (-1) fun b => (b.length : Int) := by
  cases v with
  | none => exact fromBeInt_null
  | some b =>
      have lt := short b rfl
      rw [field, List.append_assoc, take_be, fromBeInt_be (by omega)]
      rfl

/-- What stands behind a field. -/
theorem drop_field (v : Option Bytes) : (field v ++ y).drop (4 + v.elim 0 List.length) = y := by
  rw [← length_field, List.drop_left]

theorem field_value (b : Bytes) : ((field (some b) ++ y).drop 4).take b.length = b := by
  rw [field, List.append_assoc, drop_be, List.take_left]

variable (r : Row)

theorem Row.length_bytes : r.bytes.length = 2 + (r.fields.flatMap field).length := by
  rw [Row.bytes, List.length_append, length_be]

theorem Row.long : ¬ (r.bytes ++ y).length < 2 := by
  rw [List.length_append, r.length_bytes]
  omega

theorem Row.count_word : fromBeInt ((r.bytes ++ y).take 2) = r.fields.length := by
  have lt := r.count_lt
  rw [Row.bytes, List.append_assoc, take_be, fromBeInt_be (by omega)]

theorem Row.drop_count : (r.bytes ++ y).drop 2 = r.fields.flatMap field ++ y := by
  rw [Row.bytes, List.append_assoc, drop_be]

end Written

/-- The fields of a row are read as they are encoded. -/
theorem tryFields_row (first : Bool) {cols : List γ} {fields : List (Option Bytes)} (x : Bytes)
    (same : fields.length = cols.length) (lengths : ∀ v, some v ∈ fields → v.length < 2 ^ 31) :
    tryFields D first cols (fields.flatMap field ++ x) =
      (encodeFields D first cols fields).map fun out =>
      some ((fields.flatMap field).length, out) := by
  induction cols generalizing first fields with
  | nil =>
      obtain rfl : fields = [] := List.length_eq_zero_iff.mp same
      rfl
  | cons c cols ih =>
      cases fields with
      | nil => cases same
      | cons v fields =>
          have rest := ih false (Nat.succ.inj same) fun v mem =>
            lengths v (List.mem_cons_of_mem _ mem)
          have word := field_word (fields.flatMap field ++ x) fun b is =>
            lengths b (is ▸ List.mem_cons_self)
          have after := drop_field (fields.flatMap field ++ x) v
          have len := length_field v
          rw [List.flatMap_cons, List.append_assoc, encodeFields, tryFields,
            if_neg (field_long _ v), word]
          cases v with
          | none =>
              rw [Option.elim_none, Nat.add_zero] at after len
              simp only [Option.elim_none, ↓reduceIte, after, rest, encodeField]
              cases D.null c with
              | error e => rfl
              | ok out =>
                  cases encodeFields D false cols fields with
                  | error e => rfl
                  | ok more =>
                      simp only [Except.bind, Except.map, Option.map_some, List.length_append, len]
          | some v =>
              rw [Option.elim_some] at after len
              have room : ¬ (field (some v) ++ (fields.flatMap field ++ x)).length <
                  4 + v.length := by
                rw [List.length_append]
                omega
              have positive : ¬ (v.length : Int) = -1 := by omega
              have nonneg : ¬ (v.length : Int) < 0 := by omega
              simp only [Option.elim_some, if_neg positive, if_neg nonneg, Int.toNat_natCast,
                if_neg room, after, field_value, rest, encodeField]
              split
              · rfl
              · cases D.value c v with
                | error e => rfl
                | ok out =>
                    cases encodeFields D false cols fields with
                    | error e => rfl
                    | ok more =>
                        simp only [Except.bind, Except.map, Option.map_some, List.length_append,
                          len]

/-- Rows and the trailer are read as they are encoded. -/
theorem format_writes (D : Dialect γ) (cols : List γ) :
    (format D cols).Writes Row.bytes (encodeRow D cols) trailer where
  item r x := by
    have count : ¬ (r.fields.length : Int) = -1 := by omega
    show tryTupleAt D cols (r.bytes ++ x) = _
    rw [tryTupleAt, if_neg (r.long x), r.count_word]
    simp only [if_neg count, r.drop_count, encodeRow]
    by_cases same : (r.fields.length : Int) = cols.length
    · rw [if_neg (not_not.mpr same), if_neg (not_not.mpr same),
        tryFields_row true x (Int.ofNat.inj same) r.field_lt]
      cases encodeFields D true cols r.fields with
      | error e => rfl
      | ok out => simp only [Except.map, Option.map_some, r.length_bytes]
    · rw [if_pos same, if_pos same]
      rfl
  stop := by
    have long : ¬ trailer.length < 2 := by decide
    have front : trailer.take 2 = trailer := rfl
    rw [format]
    simp only [tryTupleAt, if_neg long, front, fromBeInt_trailer, if_true]
    rfl

theorem tryHeader_bytes (h : Header) (y : Bytes) :
    tryHeader D (h.fixed ++ y) =
      match D.ext h.ext.length with
      | some e => .error (.err e)
      | none => if y.length < h.ext.length then .ok none else .ok (some (19 + h.ext.length)) := by
  have long : ¬ (h.fixed ++ y).length < 19 := by
    rw [List.length_append, h.length_fixed]
    omega
  have ext : fromBe (((h.fixed ++ y).drop 15).take 4) = h.ext.length := by
    have four : (h.fixed.drop 15).length = 4 := by rw [h.drop_fixed, length_be]
    rw [List.drop_append_of_le_length (by rw [h.length_fixed]; decide),
      List.take_append_of_le_length four.ge, List.take_of_length_le four.le, h.fromBe_ext]
  rw [tryHeader, if_neg long, if_neg (not_not.mpr (h.take_signature y)), ext]
  simp only [List.length_append, h.length_fixed, Nat.add_lt_add_iff_left]

/-! ## Chunks, and whole streams -/

/-- Transcoding is the same under every cut; a whole stream gives its rows' encodings in
order, each once, or the first refusal, and the trailer is seen at its end and not before. -/
structure Transcodes (D : Dialect γ) (cols : List γ) : Prop where
  cut : ∀ cs : List Bytes,
    (Carry.shown (Carry.new.pushes (format D cols) cs)) =
      Carry.shown (Carry.new.push (format D cols) cs.flatten)
  whole : ∀ (h : Header) (rows : List Row) (cs : List Bytes), cs.flatten = stream h rows →
    Carry.shown (Carry.new.pushes (format D cols) cs) =
      match D.ext h.ext.length with
      | some e => .error (.err e)
      | none => (rows.mapM (encodeRow D cols)).map fun outs =>
          (outs.flatten, rows.length, true)
  before : ∀ (h : Header) (rows : List Row) (cs : List Bytes), cs.flatten <+: stream h rows →
    cs.flatten ≠ stream h rows → ∀ out n,
      Carry.shown (Carry.new.pushes (format D cols) cs) ≠ .ok (out, n, true)

theorem header_bytes {D : Dialect γ} (cols : List γ) {h : Header}
    (ext : D.ext h.ext.length = none) :
    (format D cols).header h.bytes = .ok (some h.bytes.length) := by
  have is := tryHeader_bytes (D := D) h h.ext
  rw [ext] at is
  simp only [if_neg (Nat.lt_irrefl h.ext.length)] at is
  rw [Header.bytes, List.length_append, h.length_fixed]
  exact is

/-- A stream's header is taken, or refused for its extension. -/
theorem absorb_stream (D : Dialect γ) (cols : List γ) (h : Header) (rows : List Row) :
    Reader.new.absorb (format D cols) (stream h rows) =
      match D.ext h.ext.length with
      | some e => .error (.err e)
      | none => (rows.mapM (encodeRow D cols)).map fun outs => ⟨[], true, true, outs⟩ := by
  cases ext : D.ext h.ext.length with
  | some e =>
      have refused : (format D cols).header (stream h rows) = .error (.err e) := by
        have is := tryHeader_bytes (D := D) h (h.ext ++ (tuples rows ++ trailer))
        rw [ext, ← List.append_assoc] at is
        exact is
      simp only [Reader.absorb, Reader.new, List.nil_append, refused, Bool.false_eq_true, if_false]
  | none => exact Reader.absorb_written (format_writes D cols) (header_bytes cols ext) rows

theorem transcodes (D : Dialect γ) (cols : List γ) : Transcodes D cols where
  cut cs := by rw [Carry.shown_pushes, Carry.shown_push]
  whole h rows cs cut := by
    rw [Carry.shown_pushes, cut, absorb_stream, Carry.showsOf]
    cases D.ext h.ext.length with
    | some e => rfl
    | none =>
        cases given : rows.mapM (encodeRow D cols) with
        | error e => rfl
        | ok outs =>
            simp only [Except.map, (mapM_ok given).1]
  before h rows cs front strict out n finished := by
    rw [Carry.shown_pushes, Carry.showsOf] at finished
    cases reads : Reader.new.absorb (format D cols) cs.flatten with
    | error e =>
        rw [reads] at finished
        cases finished
    | ok r =>
        rw [reads] at finished
        have done : r.finished = true :=
          (Prod.mk.inj (Prod.mk.inj (Except.ok.inj finished)).2).2
        obtain ⟨y, whole⟩ := front
        -- the reader would have ended on the whole stream too
        have ended : Reader.new.absorb (format D cols) (stream h rows) = .ok r := by
          rw [← whole, ← Reader.absorb_append, reads]
          exact if_pos done
        rw [absorb_stream] at ended
        cases ext : D.ext h.ext.length with
        | some e =>
            rw [ext] at ended
            cases ended
        | none =>
            rw [ext] at ended
            cases given : rows.mapM (encodeRow D cols) with
            | error e =>
                rw [given] at ended
                cases ended
            | ok outs =>
                obtain ⟨k, s, is, open_, -⟩ := Reader.absorb_front (format_writes D cols)
                  (header_bytes cols ext) given ⟨y, whole⟩ strict
                rw [reads] at is
                obtain rfl : r = s := Except.ok.inj is
                rw [done] at open_
                cases open_

end Apitap.Copy
