import Apitap.Source.CsvMark

/-!
# Chunks

What a cut of a stream may change: a mark that the first chunk splits stays in the text,
and the first buffer's size decides the largest record. Nothing else does.
-/

namespace Apitap.Csv

open Foundation CsvPump

variable {core : CsvCore} {chunks : List (List Byte)} {out ends maxRecord n : Nat}

/-- The bytes of a whole that is fed at once and read as text. -/
def bare (whole : List Byte) : List Byte := effective true whole

/-- The first chunk that has bytes holds the mark. -/
def Marked : List (List Byte) → Prop
  | [] => False
  | chunk :: rest => if chunk = [] then Marked rest else mark <+: chunk

/-- A mark at the front of the stream is split by its chunks. -/
def Split (chunks : List (List Byte)) : Prop := mark <+: chunks.flatten ∧ ¬ Marked chunks

theorem text_marked (marked : Marked chunks) : text true chunks = bare chunks.flatten := by
  induction chunks with
  | nil => exact marked.elim
  | cons chunk rest ih =>
      rw [Marked] at marked
      rw [text, List.flatten_cons]
      split at marked
      next none_ =>
        rw [if_pos none_, ih marked, none_, List.nil_append]
      next some_ =>
        obtain ⟨body, rfl⟩ := marked
        rw [if_neg some_, bare, effective, effective, if_pos ⟨rfl, List.prefix_append _ _⟩,
          if_pos ⟨rfl, (List.prefix_append _ _).trans (List.prefix_append _ _)⟩]
        rfl

theorem text_unmarked (other : ¬ Marked chunks) : text true chunks = chunks.flatten := by
  induction chunks with
  | nil => rfl
  | cons chunk rest ih =>
      rw [Marked] at other
      rw [text, List.flatten_cons]
      split at other
      next none_ => rw [if_pos none_, ih other, none_, List.nil_append]
      next some_ => rw [if_neg some_, effective, if_neg (fun both => other both.2)]

/-- A split mark stays in the text, and nothing else of a stream does not. -/
theorem text_split (split : Split chunks) : text true chunks = mark ++ bare chunks.flatten := by
  obtain ⟨⟨body, is⟩, other⟩ := split
  rw [text_unmarked other, ← is, bare, effective, if_pos ⟨rfl, List.prefix_append _ _⟩]
  rfl

theorem text_whole (whole : ¬ Split chunks) : text true chunks = bare chunks.flatten := by
  by_cases marked : Marked chunks
  · exact text_marked marked
  · rw [text_unmarked marked, bare, effective, if_neg (fun both => whole ⟨both.2, marked⟩)]

/-! ## What a stream comes to -/

theorem holds_new (resumes : core.Resumes) (room : 0 < out) (slots : 0 < ends) :
    Holds resumes (largest out maxRecord) maxRecord true .start []
      (withMaxRecord core out ends maxRecord).settle where
  seat := resumes.new
  input := rfl
  out := rfl
  ends := rfl
  ready := rfl
  bound := rfl
  largest := rfl
  room := Nat.zero_le _
  cap := room
  scratch := slots
  begins := fun _ => rfl

/-- The records of the text, or a refusal of one that fills the largest buffer. -/
theorem stream_new (resumes : core.Resumes) (room : 0 < out) (slots : 0 < ends)
    (enough : chunks.flatten.length + maxRecord + 2 < n) :
    stream n chunks (withMaxRecord core out ends maxRecord) =
      if Overfull (largest out maxRecord) .start (text true chunks) then
        some (.error (.onePast (maxRecord >>> 20)))
      else some (.ok (records (text true chunks))) :=
  stream_text (holds_new resumes room slots) enough

theorem starved_new (resumes : core.Resumes) (none_ : ¬ (0 < out ∧ 0 < ends)) :
    Starved resumes true [] (withMaxRecord core out ends maxRecord) where
  seat := resumes.new
  input := rfl
  out := rfl
  ready := rfl
  short := by
    rcases Nat.eq_zero_or_pos out with zero | room
    · exact .inl zero
    · exact .inr (Nat.eq_zero_of_not_pos fun slots => none_ ⟨room, slots⟩)

/-- What a stream must come to: the header and the records of the whole, with exactly
`ncols` cells for each or an error, and a refusal only when a record outgrows the cap. -/
def Delivers (maxRecord : Nat) (whole : List Byte) : Option (Except Refusal (List CsvRow)) → Prop
  | none => False
  | some (.error _) => ∃ r ∈ records (bare whole), maxRecord < r.out.length
  | some (.ok rows) => view rows = view (records (bare whole)) ∧
      ∀ ncols, ∀ r ∈ rows.tail, cells ncols r =
        if ncols < r.len then .error r.len
        else .ok (r.fields ++ List.replicate (ncols - r.len) [])

/-- A short row is padded, and a long one refused. -/
theorem cells_eq (ncols : Nat) (r : CsvRow) :
    cells ncols r = if ncols < r.len then .error r.len
      else .ok (r.fields ++ List.replicate (ncols - r.len) []) := by
  rw [cells]
  split
  next => rfl
  next fits =>
    obtain ⟨k, rfl⟩ := Nat.exists_eq_add_of_le (Nat.not_lt.mp fits)
    rw [Nat.add_sub_cancel_left, List.range_add, List.map_append, List.map_map, CsvRow.fields]
    congr 2
    · exact List.map_congr_left fun i mem => if_pos (List.mem_range.mp mem)
    · rw [List.eq_replicate_iff]
      refine ⟨by rw [List.length_map, List.length_range], fun f mem => ?_⟩
      obtain ⟨i, _, rfl⟩ := List.mem_map.mp mem
      exact if_neg (Nat.not_lt.mpr (Nat.le_add_right _ _))

theorem delivers_rows {whole : List Byte} {rows : List CsvRow} :
    Delivers maxRecord whole (some (.ok rows)) ↔ view rows = view (records (bare whole)) :=
  ⟨And.left, fun same => ⟨same, fun ncols r _ => cells_eq ncols r⟩⟩

/-- What the cut must not do. The buffers have room to double; a record that fills the
largest buffer they double to, with a byte to come, is met only in a stream that has a
record past the cap; and a mark is not split, unless what follows it is plain. -/
structure Sound (out ends maxRecord : Nat) (chunks : List (List Byte)) : Prop where
  room : (0 < out ∧ 0 < ends) ∨ text true chunks = []
  fits : Overfull (largest out maxRecord) .start (text true chunks) →
    ∃ r ∈ records (bare chunks.flatten), maxRecord < r.out.length
  plain : ¬ Overfull (largest out maxRecord) .start (text true chunks) → Split chunks →
    Plain (bare chunks.flatten)

/-- The records are the whole's, behind a mark that was not split or that a plain text
follows. -/
theorem view_text : view (records (text true chunks)) = view (records (bare chunks.flatten)) ↔
    (Split chunks → Plain (bare chunks.flatten)) := by
  by_cases split : Split chunks
  · rw [text_split split, view_marked_iff]
    exact ⟨fun plain _ => plain, fun plain => plain split⟩
  · rw [text_whole split]
    exact ⟨fun _ is => absurd is split, fun _ => rfl⟩

theorem delivers_settled {whole : List Byte} {k : Nat}
    {run : Nat → Option (Except Refusal (List CsvRow))}
    {last : Option (Except Refusal (List CsvRow))} (settles : ∀ n, k ≤ n → run n = last) :
    (∃ m, ∀ n, m ≤ n → Delivers maxRecord whole (run n)) ↔ Delivers maxRecord whole last := by
  constructor
  · rintro ⟨m, all⟩
    have at_ := all (max m k) (Nat.le_max_left _ _)
    rwa [settles _ (Nat.le_max_right _ _)] at at_
  · exact fun delivers => ⟨k, fun n enough => by rwa [settles n enough]⟩

/-- A stream comes to its whole's records, however it is cut, exactly when the cut is
sound. -/
theorem stream_delivers (resumes : core.Resumes) (out ends maxRecord : Nat)
    (chunks : List (List Byte)) :
    (∃ m, ∀ n, m ≤ n → Delivers maxRecord chunks.flatten
      (stream n chunks (withMaxRecord core out ends maxRecord))) ↔
        Sound out ends maxRecord chunks := by
  by_cases room : 0 < out ∧ 0 < ends
  · have runs := fun n (enough : chunks.flatten.length + maxRecord + 3 ≤ n) =>
      @stream_new _ _ _ _ maxRecord _ resumes room.1 room.2 enough
    rw [delivers_settled runs]
    by_cases blocks : Overfull (largest out maxRecord) .start (text true chunks)
    · rw [if_pos blocks]
      exact ⟨fun outgrown => ⟨.inl room, fun _ => outgrown, fun free => absurd blocks free⟩,
        fun sound => sound.fits blocks⟩
    · rw [if_neg blocks, delivers_rows, view_text]
      exact ⟨fun plain => ⟨.inl room, fun full => absurd full blocks, fun _ => plain⟩,
        fun sound => sound.plain blocks⟩
  · have starved := @starved_new _ _ _ maxRecord resumes room
    by_cases none_ : text true chunks = []
    · have runs : ∀ n, 1 ≤ n → stream n chunks (withMaxRecord core out ends maxRecord) = some
        (.ok []) := by
        intro n enough
        obtain ⟨n, rfl⟩ := Nat.exists_eq_add_of_le' enough
        exact stream_idle starved none_
      have free : ¬ Overfull (largest out maxRecord) .start (text true chunks) := by
        rw [none_]
        exact id
      have empty : records (text true chunks) = [] := by rw [none_]; rfl
      rw [delivers_settled runs, delivers_rows, ← empty, view_text]
      exact ⟨fun plain => ⟨.inr none_, fun full => absurd full free, fun _ => plain⟩,
        fun sound => sound.plain free⟩
    · have runs : ∀ n, 0 ≤ n → stream n chunks (withMaxRecord core out ends maxRecord) = none :=
        fun n _ => stream_starved starved none_
      rw [delivers_settled runs]
      exact ⟨False.elim, fun sound => sound.room.elim room none_⟩

/-! ## A mark split -/

/-- A parser that is its own seat. -/
def seated : CsvCore := ⟨Seat, ⟨.startRecord, 0, false⟩, readRecord⟩

def seated_resumes : seated.Resumes where
  seat := id
  new := rfl
  read := fun _ _ _ _ => ⟨rfl, rfl, rfl, rfl, rfl⟩

/-- A text shorter than the buffer does not fill it. -/
theorem not_overfull {cap : Nat} {q : Partial} {w : List Byte}
    (short : q.out.length + w.length ≤ cap) :
    ¬ Overfull cap q w := by
  induction w generalizing q with
  | nil => exact id
  | cons b w ih =>
      rw [List.length_cons] at short
      have one := q.byte_length b
      exact overfull_cons (by omega) (ih (by omega))

/-- A mark split before a plain header, and a cut in a quoted cell with a comma. -/
def cutCell : List (List Byte) :=
  [[0xEF], [0xBB, 0xBF, 0x61, 0x2C, 0x62, lf, quote, 0x78, 0x2C], [0x79, quote, 0x2C, 0x31, lf]]

theorem stream_delivers_seated : ∃ m, ∀ n, m ≤ n → Delivers (2 ^ 30) cutCell.flatten
    (stream n cutCell (withMaxRecord seated 65536 512 (2 ^ 30))) := by
  have small : ¬ Overfull (largest 65536 (2 ^ 30)) .start (text true cutCell) := fun full =>
    not_overfull (by decide) (full.less le_largest)
  apply (stream_delivers seated_resumes 65536 512 (2 ^ 30) cutCell).mpr
  exact ⟨.inl (by decide), fun full => absurd full small, fun _ _ =>
    ⟨0x61, _, rfl, by decide, by decide, by decide⟩⟩

/-- A mark split after its first byte, and a quoted header behind it. -/
def quotedHeader : List (List Byte) := [[0xEF], [0xBB, 0xBF, quote, 0x61, quote, lf]]

/-- Its header is not the whole's. -/
theorem quoted_header_split : ¬ ∃ m, ∀ n, m ≤ n → Delivers (2 ^ 30) quotedHeader.flatten
    (stream n quotedHeader (withMaxRecord seated 65536 512 (2 ^ 30))) := by
  have runs := fun n (enough : quotedHeader.flatten.length + 2 ^ 30 + 3 ≤ n) =>
    @stream_new _ _ 65536 512 _ _ seated_resumes (by decide) (by decide) enough
  have small : ¬ Overfull (largest 65536 (2 ^ 30)) .start (text true quotedHeader) := fun full =>
    not_overfull (by decide) (full.less le_largest)
  rw [delivers_settled runs, if_neg small, delivers_rows]
  decide +kernel

end Apitap.Csv
