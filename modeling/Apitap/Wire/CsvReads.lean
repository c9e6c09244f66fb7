import Apitap.Source.Csv
import Apitap.Wire.CsvBytes

/-!
# Reading the CSV back

A destination reads records of RFC 4180 and takes an unquoted empty field, or the marker, for an
absent value. What the transcoding of typed rows writes, over any buffers of whole rows, it reads
as those rows: every cell once, in its place, absent where it was absent.
-/

namespace Apitap.CsvOut

open Foundation
open Csv (St)
open Mysource (Text)
open Parquet (Delivered)
open Plan (wmMax)
open RowText (nullText)

/-! ## The destination -/

/-- A field's text, and whether it stood in quotes. -/
abbrev Cell := Bytes × Bool

/-- A record as far as it has been read. -/
structure Reading where
  st : St
  text : Bytes
  quoted : Bool
  cells : List Cell

def Reading.start : Reading := ⟨.startRecord, [], false, []⟩

def Reading.byte (q : Reading) (b : UInt8) : Reading × Option (List Cell) :=
  match q.st.step b with
  | (st, .skip) => ({ q with st := st, quoted := q.quoted || st = .inQuoted }, none)
  | (st, .copy c) => ({ q with st := st, text := q.text ++ [c] }, none)
  | (st, .field) => (⟨st, [], false, q.cells ++ [(q.text, q.quoted)]⟩, none)
  | (st, .record) => (⟨st, [], false, []⟩, some (q.cells ++ [(q.text, q.quoted)]))

def reader : Transducer Reading UInt8 (List Cell) := ⟨Reading.byte⟩

/-- A field as a value: absent when it is the null text outside quotes. -/
def valueOf (nullMarker : Bool) (c : Cell) : Option Bytes :=
  if c.2 = false ∧ c.1 = (if nullMarker then nullText else []) then none else some c.1

/-- The rows of a text. -/
def readCsv (nullMarker : Bool) (text : Bytes) : List (List (Option Bytes)) :=
  (reader.emits .start text).map (List.map (valueOf nullMarker))

/-! ## One field -/

/-- A text read without the end of a record. -/
def Goes (q : Reading) (text : Bytes) (q' : Reading) : Prop :=
  reader.emits q text = [] ∧ reader.state q text = q'

variable {q q' q'' : Reading} {t u v : Bytes} {cells : List Cell}

theorem Goes.nil (q : Reading) : Goes q [] q := ⟨rfl, rfl⟩

theorem Goes.emits (goes : Goes q t q') (u : Bytes) :
    reader.emits q (t ++ u) = reader.emits q' u := by
  rw [Transducer.emits_append, goes.1, goes.2]
  rfl

theorem Goes.state (goes : Goes q t q') (u : Bytes) :
    reader.state q (t ++ u) = reader.state q' u := by
  rw [Transducer.state_append, goes.2]

theorem Goes.append (front : Goes q t q') (back : Goes q' u q'') : Goes q (t ++ u) q'' :=
  ⟨(front.emits u).trans back.1, (front.state u).trans back.2⟩

theorem Goes.one {b : UInt8} (is : q.byte b = (q', none)) : Goes q [b] q' := by
  constructor
  · show (q.byte b).2.toList ++ [] = []
    rw [is]
    rfl
  · show (q.byte b).1 = q'
    rw [is]

/-- A field has been read: a comma ends it. -/
structure Pending (q : Reading) (cells : List Cell) (c : Cell) : Prop where
  text : q.text = c.1
  quoted : q.quoted = c.2
  cells : q.cells = cells
  comma : q.st.step 0x2C = (.startField, .field)

/-- A line end ends the record. -/
def Reading.Ends (q : Reading) : Prop := q.st.step 0x0A = (.startRecord, .record)

/-- A text reads as a cell wherever a field may stand; a line end behind it ends the record,
unless the record is an empty line. -/
def Reads (text : Bytes) (c : Cell) : Prop :=
  ∀ st cells, st = .startField ∨ st = .startRecord →
    ∃ q, Goes ⟨st, [], false, cells⟩ text q ∧ Pending q cells c ∧
      (st = .startField ∨ text ≠ [] → q.Ends)

theorem plain_of_all (all : (t.all fun b => !csvNeedsQuote b) = true) :
    ∀ b ∈ t, csvNeedsQuote b = false := by
  intro b mem
  have plain := List.all_eq_true.mp all b mem
  rw [Bool.not_eq_true'] at plain
  exact plain

theorem step_plain {b : UInt8} (plain : csvNeedsQuote b = false) :
    St.plain b = (.inField, .copy b) ∧ b ≠ 0x22 ∧ b ≠ 0x0D ∧ b ≠ 0x0A := by
  simp only [csvNeedsQuote, Bool.or_eq_false_iff, decide_eq_false_iff_not] at plain
  obtain ⟨⟨⟨comma, quote⟩, lf⟩, cr⟩ := plain
  refine ⟨?_, quote, cr, lf⟩
  rw [St.plain, if_neg comma, if_neg cr, if_neg lf]

/-- Inside a field without quotes. -/
theorem goes_inField (plain : ∀ b ∈ t, csvNeedsQuote b = false) (text : Bytes) :
    Goes ⟨.inField, text, false, cells⟩ t ⟨.inField, text ++ t, false, cells⟩ := by
  induction t generalizing text with
  | nil =>
      rw [List.append_nil]
      exact .nil _
  | cons b t ih =>
      obtain ⟨copies, -, -, -⟩ := step_plain (plain b List.mem_cons_self)
      have one : Goes ⟨.inField, text, false, cells⟩ [b] ⟨.inField, text ++ [b], false, cells⟩ := by
        apply Goes.one
        rw [Reading.byte, St.step, copies]
      have rest := ih (fun b mem => plain b (List.mem_cons_of_mem _ mem)) (text ++ [b])
      rw [List.append_assoc] at rest
      exact one.append rest

theorem reads_plain (plain : ∀ b ∈ t, csvNeedsQuote b = false) : Reads t (t, false) := by
  intro st cells fresh
  cases t with
  | nil =>
      refine ⟨⟨st, [], false, cells⟩, .nil _, ⟨rfl, rfl, rfl, ?_⟩, ?_⟩
      · obtain rfl | rfl := fresh <;> rfl
      · rintro (rfl | wrong)
        · rfl
        · exact absurd rfl wrong
  | cons b t =>
      obtain ⟨copies, quote, cr, lf⟩ := step_plain (plain b List.mem_cons_self)
      have at_field : St.atField b = (.inField, .copy b) := by rw [St.atField, if_neg quote, copies]
      have at_start : st.step b = (.inField, .copy b) := by
        obtain rfl | rfl := fresh
        · exact at_field
        · rw [St.step, St.atRecord, if_neg (not_or.mpr ⟨cr, lf⟩), at_field]
      have one : Goes ⟨st, [], false, cells⟩ [b] ⟨.inField, [b], false, cells⟩ := by
        apply Goes.one
        rw [Reading.byte, at_start]
        rfl
      have rest : Goes ⟨.inField, [b], false, cells⟩ t ⟨.inField, [b] ++ t, false, cells⟩ :=
        goes_inField (fun b mem => plain b (List.mem_cons_of_mem _ mem)) [b]
      exact ⟨_, one.append rest, ⟨rfl, rfl, rfl, rfl⟩, fun _ => rfl⟩

/-- Inside quotes. -/
theorem goes_inQuoted (v text : Bytes) :
    Goes ⟨.inQuoted, text, true, cells⟩
      (v.flatMap fun b => if b = 0x22 then [0x22, 0x22] else [b])
      ⟨.inQuoted, text ++ v, true, cells⟩ := by
  induction v generalizing text with
  | nil =>
      rw [List.append_nil]
      exact .nil _
  | cons b v ih =>
      have one : Goes ⟨.inQuoted, text, true, cells⟩ (if b = 0x22 then [0x22, 0x22] else [b])
          ⟨.inQuoted, text ++ [b], true, cells⟩ := by
        split_ifs with quote
        · subst quote
          have first : Goes ⟨.inQuoted, text, true, cells⟩ [0x22]
              ⟨.quoteInQuoted, text, true, cells⟩ := .one rfl
          exact first.append (.one rfl)
        · apply Goes.one
          rw [Reading.byte, St.step, if_neg quote]
      have rest := ih (text ++ [b])
      rw [List.append_assoc] at rest
      exact one.append rest

theorem reads_quoted (v : Bytes) : Reads (csvQuoteInto v) (v, true) := by
  intro st cells fresh
  have front : Goes ⟨st, [], false, cells⟩ [0x22] ⟨.inQuoted, [], true, cells⟩ := by
    obtain rfl | rfl := fresh
    · exact .one rfl
    · exact .one rfl
  have back : Goes ⟨.inQuoted, v, true, cells⟩ [0x22] ⟨.quoteInQuoted, v, true, cells⟩ := .one rfl
  exact ⟨_, (front.append (goes_inQuoted v [])).append back, ⟨rfl, rfl, rfl, rfl⟩, fun _ => rfl⟩

/-! ## One row -/

/-- Texts behind commas. -/
def behind (ts : List Bytes) : Bytes := ts.flatMap fun t => 0x2C :: t

theorem Pending.row {c : Cell} {cs : List Cell} {ts : List Bytes} (pending : Pending q cells c)
    (ends : ts = [] → q.Ends) (reads : List.Forall₂ Reads ts cs) :
    reader.emits q (behind ts ++ [0x0A]) = [cells ++ c :: cs] ∧
      reader.state q (behind ts ++ [0x0A]) = .start := by
  induction reads generalizing q cells c with
  | nil =>
      have one : q.byte 0x0A = (.start, some (cells ++ [c])) := by
        rw [Reading.byte, ends rfl, pending.text, pending.quoted, pending.cells]
        rfl
      constructor
      · show (q.byte 0x0A).2.toList ++ [] = _
        rw [one]
        rfl
      · show (q.byte 0x0A).1 = _
        rw [one]
  | @cons t c' ts cs read reads ih =>
      obtain ⟨q', goes, pending', ends'⟩ := read .startField (cells ++ [c]) (.inl rfl)
      have comma : Goes q [0x2C] ⟨.startField, [], false, cells ++ [c]⟩ := by
        apply Goes.one
        rw [Reading.byte, pending.comma, pending.text, pending.quoted, pending.cells]
      have front := comma.append goes
      obtain ⟨emits, state⟩ := ih pending' fun _ => ends' (.inl rfl)
      have split : behind (t :: ts) ++ [0x0A] = ([0x2C] ++ t) ++ (behind ts ++ [0x0A]) := by
        simp [behind]
      rw [List.append_assoc, List.singleton_append] at emits
      rw [split]
      exact ⟨(front.emits _).trans emits, (front.state _).trans state⟩

/-- A row is one record, unless it would be an empty line. -/
theorem reads_row {c : Cell} {cs : List Cell} {ts : List Bytes} (read : Reads t c)
    (reads : List.Forall₂ Reads ts cs) (line : ts = [] → t ≠ []) :
    reader.emits .start (t ++ behind ts ++ [0x0A]) = [c :: cs] ∧
      reader.state .start (t ++ behind ts ++ [0x0A]) = .start := by
  obtain ⟨q, goes, pending, ends⟩ := read .startRecord [] (.inr rfl)
  have rest := pending.row (fun alone => ends (.inr (line alone))) reads
  rw [List.append_assoc]
  exact ⟨(goes.emits _).trans rest.1, (goes.state _).trans rest.2⟩

/-- Rows one after another. -/
theorem reads_rows {texts : List Bytes} {rows : List (List Cell)}
    (reads : List.Forall₂ (fun t row => reader.emits .start t = [row] ∧
      reader.state .start t = .start) texts rows) :
    reader.emits .start texts.flatten = rows := by
  induction reads with
  | nil => rfl
  | cons read reads ih =>
      rw [List.flatten_cons, Transducer.emits_append, read.1, read.2, ih]
      rfl

/-! ## Values -/

/-- A field of a text COPY that stands for a value. -/
structure Encodes (field v : Bytes) : Prop where
  bare : ∀ b ∈ field, b ≠ 0x09 ∧ b ≠ 0x0A ∧ b ≠ 0x0D
  present : field ≠ nullText
  back : unescapeInto field = v
  marker : v = nullText → field = markerText

/-- A field that stands for a value, or for none. -/
def FieldOf (field : Bytes) : Option Bytes → Prop
  | none => field = nullText
  | some v => Encodes field v

/-- A value of a type, as the source renders it. -/
def Typed (d : Delivered) (v : Bytes) : Prop :=
  match d with
  | .bool => v = [0x74] ∨ v = [0x66]
  | .bytes => ∃ bs, v = byteaText bs
  | .json | .text => True
  | _ => v ≠ [] ∧ v ≠ nullText ∧ ∀ b ∈ v, csvNeedsQuote b = false

/-- What the destination is to read for it. -/
def shown (d : Delivered) (v : Bytes) : Bytes :=
  match d with
  | .bool => if v = [0x74] then [0x74, 0x72, 0x75, 0x65] else [0x66, 0x61, 0x6C, 0x73, 0x65]
  | .dateTime true => fullOffset v
  | .bytes => Base64.encode (hexBytes (stripHex v))
  | _ => v

theorem shown_bytes (bs : Bytes) : shown .bytes (byteaText bs) = Base64.encode bs := by
  rw [shown, stripHex_byteaText, hexBytes_encode]

/-- Raw bytes are read as they were. -/
theorem decode_shown (bs : Bytes) : Base64.decode (shown .bytes (byteaText bs)) = some bs := by
  rw [shown_bytes, Base64.decode_encode]

/-- What a field is written as. -/
def fieldText (nullMarker : Bool) (d : Delivered) (field : Bytes) : Bytes :=
  if field = nullText then if nullMarker then nullText else []
  else if nullMarker ∧ field = markerText then [0x22, 0x5C, 0x4E, 0x22]
  else appendCsvValue field d

theorem unescapeInto_plain {f : Bytes} (plain : 0x5C ∉ f) : unescapeInto f = f := by
  induction f with
  | nil => rfl
  | cons b f ih =>
      have other : b ≠ 0x5C := fun same => plain (same ▸ List.mem_cons_self)
      have rest := ih fun mem => plain (List.mem_cons_of_mem _ mem)
      rw [unescapeInto.eq_def]
      simp only [if_pos other, rest]

theorem appendCsvValue_eq {field v : Bytes} (encodes : Encodes field v) (d : Delivered) :
    appendCsvValue field d = csvValue d v := by
  rw [appendCsvValue]
  split_ifs with marked
  · rw [encodes.back]
  · rw [← unescapeInto_plain marked, encodes.back]

theorem base64_plain (bs : Bytes) : ∀ b ∈ Base64.encode bs, csvNeedsQuote b = false := by
  intro b mem
  obtain ⟨above, -, other⟩ := Base64.encode_range mem
  have apart : ∀ c : UInt8, c < 43 → b ≠ c := by
    intro c below same
    exact absurd (same ▸ above) (UInt8.not_le.mpr below)
  simp [csvNeedsQuote, other, apart 0x22 (by decide), apart 0x0A (by decide),
    apart 0x0D (by decide)]

theorem base64_ne_nullText (bs : Bytes) : Base64.encode bs ≠ nullText := by
  intro same
  have back := Base64.decode_encode bs
  rw [same] at back
  cases back

theorem fullOffset_plain {v : Bytes} (plain : ∀ b ∈ v, csvNeedsQuote b = false) :
    ∀ b ∈ fullOffset v, csvNeedsQuote b = false := by
  intro b mem
  rw [fullOffset] at mem
  split_ifs at mem
  · rcases List.mem_append.mp mem with inside | last
    · exact plain b inside
    · simp only [List.mem_cons, List.not_mem_nil, or_false] at last
      obtain rfl | rfl | rfl := last <;> rfl
  · exact plain b mem

/-- A text that reads as a present value. -/
def Tells (nullMarker : Bool) (text v : Bytes) : Prop :=
  (∃ c, Reads text c ∧ valueOf nullMarker c = some v) ∧ text ≠ []

theorem tells_plain {t : Bytes} {nullMarker : Bool} (some_ : t ≠ []) (marker : t ≠ nullText)
    (plain : ∀ b ∈ t, csvNeedsQuote b = false) : Tells nullMarker t t := by
  refine ⟨⟨(t, false), reads_plain plain, if_neg ?_⟩, some_⟩
  rintro ⟨-, same⟩
  cases nullMarker with
  | true => exact marker same
  | false => exact some_ same

theorem tells_quoted (nullMarker : Bool) (v : Bytes) : Tells nullMarker (csvQuoteInto v) v := by
  refine ⟨⟨(v, true), reads_quoted v, if_neg ?_⟩, List.cons_ne_nil _ _⟩
  rintro ⟨wrong, -⟩
  cases wrong

theorem fullOffset_ne {v : Bytes} (some_ : v ≠ []) (marker : v ≠ nullText) :
    fullOffset v ≠ [] ∧ fullOffset v ≠ nullText := by
  rw [fullOffset]
  split_ifs with offset
  · refine ⟨fun none_ => some_ (List.append_eq_nil_iff.mp none_).1, fun same => ?_⟩
    have lengths := congrArg List.length same
    rw [List.length_append] at lengths
    have short : v.length + 3 = 2 := lengths
    omega
  · exact ⟨some_, marker⟩

/-- A text without anything to quote may still be the marker. -/
theorem tells_text {v : Bytes} {nullMarker : Bool} (unmarked : nullMarker = true → v ≠ nullText) :
    Tells nullMarker (if v = [] ∨ v.any csvNeedsQuote then csvQuoteInto v else v) v := by
  split_ifs with quoted
  · exact tells_quoted nullMarker v
  · obtain ⟨some_, clean⟩ := not_or.mp quoted
    have plain : ∀ b ∈ v, csvNeedsQuote b = false := by
      intro b mem
      apply Bool.eq_false_iff.mpr
      intro needs
      exact clean (List.any_eq_true.mpr ⟨b, mem, needs⟩)
    refine ⟨⟨(v, false), reads_plain plain, if_neg ?_⟩, some_⟩
    rintro ⟨-, same⟩
    cases nullMarker with
    | true => exact unmarked rfl same
    | false => exact some_ same

/-- A present value is written so that it reads as what the destination is to see. -/
theorem csvValue_tells {d : Delivered} {v : Bytes} (typed : Typed d v) {nullMarker : Bool}
    (unmarked : nullMarker = true → v ≠ nullText) :
    Tells nullMarker (csvValue d v) (shown d v) := by
  cases d with
  | bool =>
      obtain rfl | rfl := typed
      · exact tells_plain (List.cons_ne_nil _ _) (by decide) (plain_of_all rfl)
      · exact tells_plain (List.cons_ne_nil _ _) (by decide) (plain_of_all rfl)
  | bytes =>
      obtain ⟨bs, rfl⟩ := typed
      rw [csvValue_bytes, shown_bytes]
      split_ifs with none_
      · subst none_
        exact tells_quoted nullMarker []
      · refine tells_plain (fun empty => none_ ?_) (base64_ne_nullText bs) (base64_plain bs)
        have back := Base64.decode_encode bs
        rw [empty] at back
        exact (Option.some.inj back).symm
  | json => exact tells_text unmarked
  | text => exact tells_text unmarked
  | dateTime utc =>
      obtain ⟨some_, marker, plain⟩ := typed
      cases utc with
      | true =>
          obtain ⟨some', marker'⟩ := fullOffset_ne some_ marker
          exact tells_plain some' marker' (fullOffset_plain plain)
      | false => exact tells_plain some_ marker plain
  | int width unsigned => exact tells_plain typed.1 typed.2.1 typed.2.2
  | float32 => exact tells_plain typed.1 typed.2.1 typed.2.2
  | float64 => exact tells_plain typed.1 typed.2.1 typed.2.2
  | decimal p s => exact tells_plain typed.1 typed.2.1 typed.2.2
  | date => exact tells_plain typed.1 typed.2.1 typed.2.2
  | uuid => exact tells_plain typed.1 typed.2.1 typed.2.2

/-- Only a text is spelled as the marker. -/
theorem shown_nullText {d : Delivered} (typed : Typed d nullText) :
    shown d nullText = nullText := by
  cases d with
  | bool => rcases typed with wrong | wrong <;> cases wrong
  | bytes =>
      obtain ⟨bs, wrong⟩ := typed
      cases wrong
  | json => rfl
  | text => rfl
  | dateTime utc => exact absurd rfl typed.2.1
  | int width unsigned => rfl
  | float32 => rfl
  | float64 => rfl
  | decimal p s => rfl
  | date => rfl
  | uuid => rfl

/-- Every field of a row, present or not. -/
theorem fieldText_reads {d : Delivered} {field : Bytes} {value : Option Bytes}
    (of : FieldOf field value) (typed : ∀ v ∈ value, Typed d v) (nullMarker : Bool) :
    (∃ c, Reads (fieldText nullMarker d field) c ∧ valueOf nullMarker c = value.map (shown d)) ∧
      (fieldText nullMarker d field = [] → nullMarker = false) := by
  cases value with
  | none =>
      have absent : field = nullText := of
      rw [fieldText, if_pos absent]
      cases nullMarker with
      | true =>
          exact ⟨⟨(nullText, false), reads_plain (plain_of_all rfl), rfl⟩,
            fun wrong => (by cases wrong)⟩
      | false => exact ⟨⟨([], false), reads_plain (fun b mem => (by cases mem)), rfl⟩, fun _ => rfl⟩
  | some v =>
      have encodes : Encodes field v := of
      rw [fieldText, if_neg encodes.present]
      split_ifs with marked
      · obtain ⟨on, rfl⟩ := marked
        have is : v = nullText := encodes.back.symm
        subst is
        obtain ⟨tells, -⟩ := tells_quoted nullMarker nullText
        rw [Option.map_some, shown_nullText (typed _ rfl)]
        exact ⟨tells, fun empty => (by cases empty)⟩
      · have unmarked : nullMarker = true → v ≠ nullText := by
          intro on same
          exact marked ⟨on, encodes.marker same⟩
        obtain ⟨tells, some_⟩ := csvValue_tells (typed v rfl) unmarked
        rw [appendCsvValue_eq encodes]
        exact ⟨tells, fun empty => absurd empty some_⟩

/-! ## The transcoding -/

section Transcode

variable {lossy : Bytes → Text} {delivered : List Delivered} {nullMarker : Bool}
  {cursor : Option (Nat × Bool)}

/-- The watermark behind a row's fields from a column on. -/
def rowMark (lossy : Bytes → Text) (nullMarker : Bool) (cursor : Option (Nat × Bool)) (col : Nat)
    (wm : Option Text) : List Bytes → Option Text
  | [] => wm
  | field :: fields =>
      rowMark lossy nullMarker cursor (col + 1)
        (if field = nullText ∨ nullMarker ∧ field = markerText then wm
         else watermark lossy cursor col field wm) fields

/-- What a row's fields are written as. -/
def rowTexts (delivered : List Delivered) (nullMarker : Bool) (fields : List Bytes) : List Bytes :=
  List.zipWith (fieldText nullMarker) delivered fields

/-- One field of a row. -/
theorem rowFrom_cons {col : Nat} {w : Written} {field : Bytes} {fields : List Bytes} {d : Delivered}
    (is : delivered[col]? = some d) :
    rowFrom lossy delivered nullMarker cursor col w (field :: fields) =
      rowFrom lossy delivered nullMarker cursor (col + 1)
        ⟨w.out ++ (if 0 < col then [0x2C] else []) ++ fieldText nullMarker d field,
          if field = nullText ∨ nullMarker ∧ field = markerText then w.wm
          else watermark lossy cursor col field w.wm, w.rows⟩ fields := by
  rw [rowFrom, is, fieldText]
  by_cases absent : field = nullText
  · simp only [absent, if_true, true_or]
  · by_cases marked : nullMarker = true ∧ field = markerText
    · rw [if_pos (Or.inr marked)]
      simp only [if_neg absent, if_pos marked]
    · rw [if_neg (not_or.mpr ⟨absent, marked⟩)]
      simp only [if_neg absent, if_neg marked]

theorem rowFrom_eq {col : Nat} {w : Written} {fields : List Bytes} (after : 0 < col)
    (fits : col + fields.length = delivered.length) :
    rowFrom lossy delivered nullMarker cursor col w fields =
      .ok ⟨w.out ++ behind (rowTexts (delivered.drop col) nullMarker fields),
        rowMark lossy nullMarker cursor col w.wm fields, w.rows⟩ := by
  induction fields generalizing col w with
  | nil =>
      have ends : ¬ col ≠ delivered.length := not_not_intro fits
      rw [rowFrom, if_neg ends, rowTexts, List.zipWith_nil_right, behind, List.flatMap_nil,
        List.append_nil]
      rfl
  | cons field fields ih =>
      have inside : col < delivered.length := by
        rw [← fits, List.length_cons]
        omega
      have is : delivered[col]? = some delivered[col] := List.getElem?_eq_getElem inside
      have onward : col + 1 + fields.length = delivered.length := by
        rw [← fits, List.length_cons]
        omega
      have texts : rowTexts (delivered.drop col) nullMarker (field :: fields) =
          fieldText nullMarker delivered[col] field ::
            rowTexts (delivered.drop (col + 1)) nullMarker fields := by
        rw [rowTexts, List.drop_eq_getElem_cons inside]
        rfl
      rw [rowFrom_cons is, ih (Nat.succ_pos col) onward, texts, behind, behind, List.flatMap_cons,
        if_pos after]
      simp only [List.append_assoc, List.cons_append]
      rfl

/-- A row as CSV, short of its line end. -/
def csvLine (delivered : List Delivered) (nullMarker : Bool) (fields : List Bytes) : Bytes :=
  [0x2C].intercalate (rowTexts delivered nullMarker fields)

theorem intercalate_eq (t : Bytes) (ts : List Bytes) :
    [0x2C].intercalate (t :: ts) = t ++ behind ts := by
  induction ts generalizing t with
  | nil => rw [List.intercalate_singleton, behind, List.flatMap_nil, List.append_nil]
  | cons t' ts ih =>
      rw [List.intercalate_cons_cons, ih t', behind, behind, List.flatMap_cons]
      simp only [List.append_assoc, List.nil_append, List.cons_append]

theorem row_eq {w : Written} {fields : List Bytes} (fits : fields.length = delivered.length)
    (some_ : delivered ≠ []) :
    rowFrom lossy delivered nullMarker cursor 0 w fields =
      .ok ⟨w.out ++ csvLine delivered nullMarker fields,
        rowMark lossy nullMarker cursor 0 w.wm fields, w.rows⟩ := by
  cases delivered with
  | nil => exact absurd rfl some_
  | cons d ds =>
      cases fields with
      | nil => cases fits
      | cons field fields =>
          have is : (d :: ds)[0]? = some d := rfl
          have same := Nat.succ.inj fits
          have text : csvLine (d :: ds) nullMarker (field :: fields) =
              fieldText nullMarker d field ++ behind (rowTexts ds nullMarker fields) := by
            rw [csvLine, rowTexts, List.zipWith_cons_cons, intercalate_eq]
            rfl
          rw [rowFrom_cons is,
            rowFrom_eq Nat.one_pos (by rw [same, List.length_cons, Nat.add_comm]), text]
          simp only [Nat.lt_irrefl, if_false, List.append_nil, List.append_assoc]
          rfl

/-! ## Lines -/

/-- A row of fields as a text COPY has it. -/
def tsvLine (fields : List Bytes) : Bytes := [0x09].intercalate fields

theorem mem_intercalate {sep : UInt8} {ls : List Bytes} {b : UInt8}
    (mem : b ∈ [sep].intercalate ls) : b = sep ∨ ∃ l ∈ ls, b ∈ l := by
  induction ls with
  | nil => cases mem
  | cons l ls ih =>
      cases ls with
      | nil =>
          rw [List.intercalate_singleton] at mem
          exact .inr ⟨l, List.mem_cons_self, mem⟩
      | cons l' ls =>
          rw [List.intercalate_cons_cons] at mem
          simp only [List.mem_append, List.mem_singleton] at mem
          obtain (inside | rfl) | later := mem
          · exact .inr ⟨l, List.mem_cons_self, inside⟩
          · exact .inl rfl
          · obtain same | ⟨k, k_mem, inside⟩ := ih later
            · exact .inl same
            · exact .inr ⟨k, List.mem_cons_of_mem _ k_mem, inside⟩

theorem lines_eq {ls : List Bytes} (whole : ∀ l ∈ ls, 0x0A ∉ l) :
    lines (ls.flatMap (· ++ [0x0A])) = ls := by
  have pieces : (ls.flatMap (· ++ [0x0A])).splitOn 0x0A = ls ++ [[]] := by
    induction ls with
    | nil => rfl
    | cons l ls ih =>
        rw [List.flatMap_cons, List.append_assoc, List.singleton_append,
          List.splitOn_append_cons_self_of_not_mem (whole l List.mem_cons_self),
          ih fun l mem => whole l (List.mem_cons_of_mem _ mem), List.cons_append]
  rw [lines, pieces]
  simp

/-- A field without the bytes that frame it. -/
def Bare (field : Bytes) : Prop := ∀ b ∈ field, b ≠ 0x09 ∧ b ≠ 0x0A ∧ b ≠ 0x0D

theorem bare_of_all {field : Bytes}
    (all : (field.all fun b => b != 0x09 && b != 0x0A && b != 0x0D) = true) : Bare field := by
  intro b mem
  have bare := List.all_eq_true.mp all b mem
  simp only [Bool.and_eq_true, bne_iff_ne] at bare
  exact ⟨bare.1.1, bare.1.2, bare.2⟩

theorem bare_nullText : Bare nullText := bare_of_all rfl

theorem tsvLine_plain {fields : List Bytes} (bare : ∀ f ∈ fields, Bare f) :
    0x0A ∉ tsvLine fields ∧ 0x0D ∉ tsvLine fields := by
  constructor
  · intro mem
    obtain wrong | ⟨f, f_mem, inside⟩ := mem_intercalate mem
    · cases wrong
    · exact (bare f f_mem _ inside).2.1 rfl
  · intro mem
    obtain wrong | ⟨f, f_mem, inside⟩ := mem_intercalate mem
    · cases wrong
    · exact (bare f f_mem _ inside).2.2 rfl

theorem fields_line {fields : List Bytes} (bare : ∀ f ∈ fields, Bare f) (some_ : fields ≠ []) :
    (stripSuffix 0x0D (tsvLine fields)).splitOn 0x09 = fields := by
  have kept : stripSuffix 0x0D (tsvLine fields) = tsvLine fields := by
    apply if_neg
    intro last
    exact (tsvLine_plain bare).2 (List.mem_of_getLast? last)
  rw [kept, tsvLine, List.splitOn_intercalate]
  · intro f mem tab
    exact (bare f mem _ tab).1 rfl
  · exact some_

/-- A buffer of whole rows. -/
def tsvRows (rows : List (List Bytes)) : Bytes := rows.flatMap fun r => tsvLine r ++ [0x0A]

def csvRows (delivered : List Delivered) (nullMarker : Bool) (rows : List (List Bytes)) : Bytes :=
  rows.flatMap fun r => csvLine delivered nullMarker r ++ [0x0A]

/-- The watermark behind rows. -/
def rowsMark (lossy : Bytes → Text) (nullMarker : Bool) (cursor : Option (Nat × Bool))
    (wm : Option Text) (rows : List (List Bytes)) : Option Text :=
  rows.foldl (rowMark lossy nullMarker cursor 0) wm

/-- Rows with as many fields as there are columns. -/
def Whole (delivered : List Delivered) (rows : List (List Bytes)) : Prop :=
  ∀ r ∈ rows, r.length = delivered.length ∧ ∀ f ∈ r, Bare f

theorem tsvToCsv_eq {w : Written} {rows : List (List Bytes)} (whole : Whole delivered rows)
    (some_ : delivered ≠ []) :
    tsvToCsv lossy delivered nullMarker cursor w (tsvRows rows) =
      .ok ⟨w.out ++ csvRows delivered nullMarker rows, rowsMark lossy nullMarker cursor w.wm rows,
        w.rows + rows.length⟩ := by
  have cut : lines (tsvRows rows) = rows.map tsvLine := by
    have same : tsvRows rows = (rows.map tsvLine).flatMap (· ++ [0x0A]) := by
      rw [tsvRows, List.flatMap_map]
    rw [same, lines_eq]
    intro l mem
    obtain ⟨r, r_mem, rfl⟩ := List.mem_map.mp mem
    exact (tsvLine_plain (whole r r_mem).2).1
  rw [tsvToCsv, cut]
  clear cut
  induction rows generalizing w with
  | nil =>
      rw [csvRows, List.flatMap_nil, List.append_nil]
      rfl
  | cons r rows ih =>
      obtain ⟨fits, bare⟩ := whole r List.mem_cons_self
      have named : r ≠ [] := by
        rintro rfl
        exact some_ (List.length_eq_zero_iff.mp fits.symm)
      rw [List.map_cons, List.foldlM_cons, fields_line bare named, row_eq fits some_]
      refine (ih fun r mem => whole r (List.mem_cons_of_mem _ mem)).trans ?_
      rw [csvRows, csvRows, List.flatMap_cons, List.length_cons, rowsMark, rowsMark,
        List.foldl_cons]
      simp only [List.append_assoc, Nat.add_assoc, Nat.add_comm 1]

theorem sendAll_eq {bufs : List (List (List Bytes))} (whole : ∀ b ∈ bufs, Whole delivered b)
    (some_ : delivered ≠ []) :
    sendAll lossy delivered nullMarker cursor (bufs.map tsvRows) =
      .ok ⟨csvRows delivered nullMarker bufs.flatten,
        rowsMark lossy nullMarker cursor none bufs.flatten, bufs.flatten.length⟩ := by
  have onward (w : Written) :
      (bufs.map tsvRows).foldlM (tsvToCsv lossy delivered nullMarker cursor) w =
        .ok ⟨w.out ++ csvRows delivered nullMarker bufs.flatten,
          rowsMark lossy nullMarker cursor w.wm bufs.flatten, w.rows + bufs.flatten.length⟩ := by
    induction bufs generalizing w with
    | nil =>
        rw [List.flatten_nil, csvRows, List.flatMap_nil, List.append_nil]
        rfl
    | cons b bufs ih =>
        rw [List.map_cons, List.foldlM_cons, tsvToCsv_eq (whole b List.mem_cons_self) some_]
        refine (ih (fun b mem => whole b (List.mem_cons_of_mem _ mem)) _).trans ?_
        rw [List.flatten_cons, csvRows, csvRows, csvRows, List.flatMap_append, List.length_append,
          rowsMark, rowsMark, rowsMark, List.foldl_append]
        simp only [List.append_assoc, Nat.add_assoc]
  have all := onward ⟨[], none, 0⟩
  rw [List.nil_append, Nat.zero_add] at all
  exact all

/-- The field the watermark is taken from, where it is present. -/
def cursorField (nullMarker : Bool) (idx : Nat) (fields : List Bytes) : Option Bytes :=
  fields[idx]?.bind fun f =>
    if f = nullText ∨ nullMarker ∧ f = markerText then none else some f

theorem rowMark_past {idx col : Nat} {numeric : Bool} {wm : Option Text} (fields : List Bytes)
    (past : idx < col) : rowMark lossy nullMarker (some (idx, numeric)) col wm fields = wm := by
  induction fields generalizing col with
  | nil => rfl
  | cons field fields ih =>
      have other : watermark lossy (some (idx, numeric)) col field wm = wm :=
        if_neg (Nat.ne_of_gt past)
      rw [rowMark, other, ite_self]
      exact ih (Nat.lt_succ_of_lt past)

theorem rowMark_eq {idx col : Nat} {numeric : Bool} {wm : Option Text} (fields : List Bytes)
    (ahead : col ≤ idx) :
    rowMark lossy nullMarker (some (idx, numeric)) col wm fields =
      (cursorField nullMarker (idx - col) fields).elim wm
        (fun f => wmMax wm (some (lossy f)) numeric) := by
  induction fields generalizing col wm with
  | nil => rfl
  | cons field fields ih =>
      obtain here | later := Nat.eq_or_lt_of_le ahead
      · subst here
        rw [rowMark, rowMark_past fields (Nat.lt_succ_self col), Nat.sub_self, cursorField,
          List.getElem?_cons_zero, Option.bind_some]
        split_ifs with skipped
        · rfl
        · exact if_pos rfl
      · have other : watermark lossy (some (idx, numeric)) col field wm = wm :=
          if_neg (Nat.ne_of_lt later)
        have next : idx - col = idx - (col + 1) + 1 := by omega
        rw [rowMark, other, ite_self, ih later, next]
        rfl

/-- The watermark is the largest of the cursor column's present texts. -/
theorem rowsMark_eq {idx : Nat} {numeric : Bool} (rows : List (List Bytes)) (wm : Option Text) :
    rowsMark lossy nullMarker (some (idx, numeric)) wm rows =
      (rows.filterMap (cursorField nullMarker idx)).foldl
        (fun wm f => wmMax wm (some (lossy f)) numeric) wm := by
  induction rows generalizing wm with
  | nil => rfl
  | cons r rows ih =>
      have first : rowMark lossy nullMarker (some (idx, numeric)) 0 wm r = _ :=
        rowMark_eq r (Nat.zero_le idx)
      have onward := ih (rowMark lossy nullMarker (some (idx, numeric)) 0 wm r)
      rw [rowsMark, List.foldl_cons]
      refine onward.trans ?_
      rw [first, Nat.sub_zero]
      cases is : cursorField nullMarker idx r with
      | none => rw [List.filterMap_cons_none is, Option.elim_none]
      | some f => rw [List.filterMap_cons_some is, Option.elim_some, List.foldl_cons]

/-! ## The rows come back -/

/-- A row of fields and the values they stand for. -/
def RowOf (delivered : List Delivered) (fields : List Bytes) (values : List (Option Bytes)) :
    Prop :=
  List.Forall₂ FieldOf fields values ∧
    List.Forall₂ (fun d value => ∀ v ∈ value, Typed d v) delivered values

theorem texts_read {fields : List Bytes} {values : List (Option Bytes)}
    (of : RowOf delivered fields values) (nullMarker : Bool) :
    ∃ cs, List.Forall₂ Reads (rowTexts delivered nullMarker fields) cs ∧
      cs.map (valueOf nullMarker) =
        List.zipWith (fun d value => value.map (shown d)) delivered values := by
  obtain ⟨fields_of, typed⟩ := of
  induction typed generalizing fields with
  | nil => exact ⟨[], .nil, rfl⟩
  | cons typed rest ih =>
      cases fields_of with
      | cons field_of fields_of =>
          obtain ⟨⟨c, read, value⟩, -⟩ := fieldText_reads field_of typed nullMarker
          obtain ⟨cs, reads, values⟩ := ih fields_of
          refine ⟨c :: cs, .cons read reads, ?_⟩
          rw [List.map_cons, value, values]
          rfl

theorem csvLine_reads {fields : List Bytes} {values : List (Option Bytes)}
    (of : RowOf delivered fields values) (wide : 2 ≤ delivered.length ∨ nullMarker = true)
    (some_ : delivered ≠ []) :
    ∃ row, (reader.emits .start (csvLine delivered nullMarker fields ++ [0x0A]) = [row] ∧
        reader.state .start (csvLine delivered nullMarker fields ++ [0x0A]) = .start) ∧
      row.map (valueOf nullMarker) =
        List.zipWith (fun d value => value.map (shown d)) delivered values := by
  obtain ⟨cs, reads, values_is⟩ := texts_read of nullMarker
  obtain ⟨fields_of, typed⟩ := of
  cases typed with
  | nil => exact absurd rfl some_
  | @cons d value ds values typed rest =>
      cases fields_of with
      | @cons field _ fields _ field_of fields_of =>
          have texts : rowTexts (d :: ds) nullMarker (field :: fields) =
              fieldText nullMarker d field :: rowTexts ds nullMarker fields := rfl
          rw [texts] at reads
          cases reads with
          | @cons _ c _ cs read reads =>
              refine ⟨c :: cs, ?_, values_is⟩
              rw [csvLine, texts, intercalate_eq]
              refine reads_row read reads fun alone empty => ?_
              have off := (fieldText_reads field_of typed nullMarker).2 empty
              have single : ds = [] := by
                cases rest with
                | nil => rfl
                | cons _ _ =>
                    cases fields_of with
                    | cons _ _ => cases alone
              obtain two | on := wide
              · rw [single, List.length_singleton] at two
                exact absurd two (by decide)
              · cases on.symm.trans off

theorem whole_of {rows : List (List Bytes)} {values : List (List (Option Bytes))}
    (of : List.Forall₂ (RowOf delivered) rows values) : Whole delivered rows := by
  intro r mem
  obtain ⟨vs, fields_of, typed⟩ : ∃ vs, RowOf delivered r vs := by
    induction of with
    | nil => cases mem
    | @cons row vs rows values row_of rest ih =>
        rcases List.mem_cons.mp mem with rfl | later
        · exact ⟨vs, row_of⟩
        · exact ih later
  refine ⟨fields_of.length_eq.trans typed.length_eq.symm, ?_⟩
  clear typed mem
  induction fields_of with
  | nil =>
      intro f mem
      cases mem
  | @cons field value _ _ field_of rest ih =>
      intro f mem
      rcases List.mem_cons.mp mem with rfl | later
      · cases value with
        | none =>
            have absent : f = nullText := field_of
            subst absent
            exact bare_nullText
        | some v => exact field_of.bare
      · exact ih f later

/-- What a loader writes from buffers of whole rows, with the null marker or two columns at
least, the destination reads as those rows: every value once and in its place, absent where it
was absent, and bytes in the base64 that decodes to them. -/
theorem csv_reads_back (lossy : Bytes → Text) (delivered : List Delivered) (nullMarker : Bool)
    (cursor : Option (Nat × Bool)) (bufs : List (List (List Bytes)))
    (rows : List (List (Option Bytes))) (some_ : delivered ≠ [])
    (wide : 2 ≤ delivered.length ∨ nullMarker = true)
    (of : List.Forall₂ (RowOf delivered) bufs.flatten rows) :
    ∃ w, sendAll lossy delivered nullMarker cursor (bufs.map tsvRows) = .ok w ∧
      w.rows = rows.length ∧
      (∀ idx numeric, cursor = some (idx, numeric) →
        w.wm = (bufs.flatten.filterMap (cursorField nullMarker idx)).foldl
          (fun wm f => wmMax wm (some (lossy f)) numeric) none) ∧
      readCsv nullMarker w.out =
        rows.map (List.zipWith (fun d value => value.map (shown d)) delivered) ∧
      ∀ bs, Base64.decode (shown .bytes (byteaText bs)) = some bs := by
  have whole : ∀ b ∈ bufs, Whole delivered b := fun b b_mem r r_mem =>
    whole_of of r (List.mem_flatten.mpr ⟨b, b_mem, r_mem⟩)
  have mark : ∀ idx numeric, cursor = some (idx, numeric) →
      rowsMark lossy nullMarker cursor none bufs.flatten =
        (bufs.flatten.filterMap (cursorField nullMarker idx)).foldl
          (fun wm f => wmMax wm (some (lossy f)) numeric) none := by
    rintro idx numeric rfl
    exact rowsMark_eq _ none
  refine ⟨_, sendAll_eq whole some_, of.length_eq, mark, ?_, decode_shown⟩
  have reads : ∃ cells, List.Forall₂ (fun t row => reader.emits .start t = [row] ∧
      reader.state .start t = .start)
        (bufs.flatten.map fun r => csvLine delivered nullMarker r ++ [0x0A]) cells ∧
      cells.map (List.map (valueOf nullMarker)) =
        rows.map (List.zipWith (fun d value => value.map (shown d)) delivered) := by
    generalize bufs.flatten = fields at of
    induction of with
    | nil => exact ⟨[], .nil, rfl⟩
    | cons row_of rest ih =>
        obtain ⟨row, read, values⟩ := csvLine_reads row_of wide some_
        obtain ⟨cells, reads, all⟩ := ih
        refine ⟨row :: cells, .cons read reads, ?_⟩
        rw [List.map_cons, values, all, List.map_cons]
  obtain ⟨cells, reads, values⟩ := reads
  rw [readCsv, csvRows, List.flatMap_def, reads_rows reads, values]

/-! ## Fields as the row renderer escapes them -/

theorem unescapeInto_escapeByte (b : UInt8) (rest : Bytes) :
    unescapeInto (RowText.escapeByte b ++ rest) = b :: unescapeInto rest := by
  by_cases special : RowText.isSpecial b = true
  · rw [RowText.escapeByte, if_pos special]
    rcases RowText.isSpecial_iff.mp special with rfl | rfl | rfl | rfl <;> rfl
  · have other : b ≠ 0x5C := fun same => special (RowText.isSpecial_iff.mpr (.inl same))
    rw [RowText.escapeByte, if_neg special, List.singleton_append, unescapeInto.eq_def]
    exact if_pos other

theorem unescapeInto_escaped (v : Bytes) : unescapeInto (v.flatMap RowText.escapeByte) = v := by
  induction v with
  | nil => rfl
  | cons b v ih => rw [List.flatMap_cons, unescapeInto_escapeByte, ih]

theorem bare_escapeByte (b : UInt8) : Bare (RowText.escapeByte b) := by
  rw [RowText.escapeByte]
  split_ifs with special
  · rcases RowText.isSpecial_iff.mp special with rfl | rfl | rfl | rfl <;> exact bare_of_all rfl
  · intro c mem
    obtain rfl := List.mem_singleton.mp mem
    have other := (not_congr RowText.isSpecial_iff).mp special
    exact ⟨fun same => other (.inr (.inl same)), fun same => other (.inr (.inr (.inl same))),
      fun same => other (.inr (.inr (.inr same)))⟩

/-- What `copy_escape` writes stands for what it was given. -/
theorem encodes_copyEscape (v : Bytes) : Encodes (RowText.copyEscape v []) v := by
  rw [RowText.copyEscape_eq, List.nil_append]
  refine ⟨?_, RowText.escaped_ne_nullText v, unescapeInto_escaped v, ?_⟩
  · intro b mem
    obtain ⟨a, -, inside⟩ := List.mem_flatMap.mp mem
    exact bare_escapeByte a b inside
  · rintro rfl
    rfl

/-- A value as a field. -/
def escapeField : Option Bytes → Bytes
  | none => nullText
  | some v => RowText.copyEscape v []

theorem fieldOf_escapeField (value : Option Bytes) : FieldOf (escapeField value) value := by
  cases value with
  | none => rfl
  | some v => exact encodes_copyEscape v

theorem rowOf_escapeField {values : List (Option Bytes)}
    (typed : List.Forall₂ (fun d value => ∀ v ∈ value, Typed d v) delivered values) :
    RowOf delivered (values.map escapeField) values := by
  refine ⟨?_, typed⟩
  rw [List.forall₂_map_left_iff, List.forall₂_same]
  exact fun value _ => fieldOf_escapeField value

/-- Three columns: a text with a comma, a quote and a line end, the bytes of `Hi`, an absent value,
an empty text, no bytes, and a flag. -/
def sampleRows : List (List (Option Bytes)) :=
  [[some [0x61, 0x2C, 0x22, 0x0A], some (byteaText [0x48, 0x69]), some [0x74]],
    [none, none, some [0x66]], [some [], some (byteaText []), none]]

def sampleBufs : List (List (List Bytes)) :=
  [(sampleRows.take 1).map (List.map escapeField), (sampleRows.drop 1).map (List.map escapeField)]

theorem csv_reads_back_sample :
    ∃ w, sendAll (List.map fun c => Char.ofNat c.toNat) [.text, .bytes, .bool] false
        (some (0, false)) (sampleBufs.map tsvRows) = .ok w ∧
      w.rows = sampleRows.length ∧
      (∀ idx numeric, some (0, false) = some (idx, numeric) →
        w.wm = (sampleBufs.flatten.filterMap (cursorField false idx)).foldl
          (fun wm f => wmMax wm (some (f.map fun c => Char.ofNat c.toNat)) numeric) none) ∧
      readCsv false w.out = sampleRows.map
        (List.zipWith (fun d value => value.map (shown d)) [.text, .bytes, .bool]) ∧
      ∀ bs, Base64.decode (shown .bytes (byteaText bs)) = some bs := by
  apply csv_reads_back
  · decide
  · decide
  · have text (value : Option Bytes) : ∀ v ∈ value, Typed .text v := fun _ _ => trivial
    have bytes (bs : Bytes) : ∀ v ∈ some (byteaText bs), Typed .bytes v := by
      rintro v ⟨⟩
      exact ⟨bs, rfl⟩
    have absent (d : Delivered) : ∀ v ∈ (none : Option Bytes), Typed d v := by
      rintro v ⟨⟩
    have yes : ∀ v ∈ some [0x74], Typed .bool v := by
      rintro v ⟨⟩
      exact .inl rfl
    have no : ∀ v ∈ some [0x66], Typed .bool v := by
      rintro v ⟨⟩
      exact .inr rfl
    have first := rowOf_escapeField (.cons (text (some [0x61, 0x2C, 0x22, 0x0A]))
      (.cons (bytes [0x48, 0x69]) (.cons yes .nil)))
    have second := rowOf_escapeField (.cons (text none) (.cons (absent .bytes) (.cons no .nil)))
    have third := rowOf_escapeField (.cons (text (some []))
      (.cons (bytes []) (.cons (absent .bool) .nil)))
    exact .cons first (.cons second (.cons third .nil))

end Transcode

end Apitap.CsvOut
