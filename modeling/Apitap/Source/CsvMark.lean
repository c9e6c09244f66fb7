import Apitap.Source.CsvRun
import Mathlib.Data.List.GetD
import Mathlib.Data.List.TakeWhile

/-!
# The mark

A mark that its first chunk splits is read as text. It stays in front of the header's
first field, where `row_strings` drops it, and no record differs, when a byte follows
that neither opens a quoted field nor ends a line.
-/

namespace Apitap.Csv

open Foundation

variable {q : Partial} {w : List Byte} {b : Byte}

/-- The records of a text behind what has been read. -/
def recordsFrom (q : Partial) (w : List Byte) : List CsvRow :=
  rfc4180.emits q w ++ (rfc4180.state q w).last.toList

theorem recordsFrom_cons : recordsFrom q (b :: w) = (q.byte b).2.toList ++
    recordsFrom (q.byte b).1 w :=
  List.append_assoc _ _ _

/-! ## The first field -/

/-- What a begun record says of its first field: all of it once it has ended, and else
its front. -/
def Leads (q : Partial) (f : List Byte) : Prop :=
  match q.ends with
  | [] => q.out <+: f
  | k :: _ => f = q.out.take k

/-- A begun record's fields end within its bytes. -/
def Within (q : Partial) : Prop := ∀ k ∈ q.ends, k ≤ q.out.length

theorem Leads.row (q : Partial) : Leads q (q.row.field 0) := by
  unfold Leads
  cases ends : q.ends with
  | nil => simp [Partial.row, CsvRow.field, ends]
  | cons k rest => simp [Partial.row, CsvRow.field, ends]

/-- What a byte makes of a begun record: it is added to, or it ends. -/
theorem byte_begun (begun : q.st.between = false) (b : Byte) :
    (∃ st c, st.between = false ∧ q.byte b = (⟨st, q.out ++ c, q.ends⟩, none)) ∨
    (∃ st, st.between = false ∧ q.byte b = (⟨st, q.out, q.ends ++ [q.out.length]⟩, none)) ∨
    ∃ st, q.byte b = (⟨st, [], []⟩, some q.row) := by
  obtain ⟨st, out, ends⟩ := q
  have goes : ∀ {st' act}, st.step b = (st', act) → act ≠ .record → st'.between = false := by
    intro st' act is other
    cases st <;> simp [St.between] at begun <;>
      simp only [St.step, St.atField, St.plain] at is <;> split_ifs at is <;>
      obtain ⟨rfl, rfl⟩ := Prod.mk.inj is <;> first | rfl | exact absurd rfl other
  rcases step : st.step b with ⟨st', act⟩
  cases act with
  | skip => exact .inl ⟨st', [], goes step (fun is => by cases is), by simp [Partial.byte, step]⟩
  | copy c => exact .inl ⟨st', [c], goes step (fun is => by cases is), by simp [Partial.byte, step]⟩
  | field => exact .inr (.inl ⟨st',
      goes step (fun is => by cases is), by simp [Partial.byte, step]⟩)
  | record => exact .inr (.inr ⟨st', by simp [Partial.byte, step]⟩)

/-- A begun record is the first, and its first field is as it was led to. -/
theorem head_leads (begun : q.st.between = false) (within : Within q) (w : List Byte) :
    ∃ r rs, recordsFrom q w = r :: rs ∧ Leads q (r.field 0) := by
  induction w generalizing q with
  | nil =>
      refine ⟨q.row, [], ?_, .row q⟩
      change (Partial.last q).toList = _
      rw [Partial.last, if_neg (by rw [begun]; decide)]
      rfl
  | cons b w ih =>
      rcases byte_begun begun b with ⟨st, c, begun', is⟩ | ⟨st, begun', is⟩ | ⟨st, is⟩
      · have within' : Within ⟨st, q.out ++ c, q.ends⟩ := fun k mem =>
          (within k mem).trans (by rw [List.length_append]; exact Nat.le_add_right _ _)
        obtain ⟨r, rs, found, leads⟩ := ih begun' within'
        refine ⟨r, rs, by rw [recordsFrom_cons, is]; exact found, ?_⟩
        unfold Leads at leads ⊢
        cases ends : q.ends with
        | nil =>
            simp only [ends] at leads ⊢
            exact (List.prefix_append _ _).trans leads
        | cons k rest =>
            simp only [ends] at leads ⊢
            rw [leads, List.take_append_of_le_length
              (within k (by rw [ends]; exact List.mem_cons_self))]
      · have within' : Within ⟨st, q.out, q.ends ++ [q.out.length]⟩ := fun k mem =>
          (List.mem_append.mp mem).elim (within k) (fun last => (List.mem_singleton.mp last).le)
        obtain ⟨r, rs, found, leads⟩ := ih begun' within'
        refine ⟨r, rs, by rw [recordsFrom_cons, is]; exact found, ?_⟩
        unfold Leads at leads ⊢
        cases ends : q.ends with
        | nil =>
            simp only [ends, List.nil_append] at leads ⊢
            simp only [leads, List.take_length, List.prefix_rfl]
        | cons k rest =>
            rw [ends] at leads
            exact leads
      · exact ⟨q.row, recordsFrom ⟨st, [], []⟩ w, by rw [recordsFrom_cons, is]; rfl, .row q⟩

/-- What ends a field that is not quoted. -/
def Delimits (b : Byte) : Prop := b = comma ∨ b = cr ∨ b = lf

instance : DecidablePred Delimits := fun _ => inferInstanceAs (Decidable (_ ∨ _ ∨ _))

/-- The front of a text up to what ends a field. -/
def front (w : List Byte) : List Byte := w.takeWhile (fun b => ¬ Delimits b)

theorem front_cons (more : ¬ Delimits b) : front (b :: w) = b :: front w :=
  List.takeWhile_cons_of_pos (decide_eq_true more)

theorem front_delimited (ends : Delimits b) : front (b :: w) = [] :=
  List.takeWhile_cons_of_neg (by simpa using ends)

theorem not_delimits_of_mem_front (mem : b ∈ front w) : ¬ Delimits b := by
  simpa using List.mem_takeWhile_imp mem

/-- A field that is not quoted reaches to what ends it. -/
theorem head_plain {out : List Byte} (w : List Byte) :
    ∃ r rs, recordsFrom ⟨.inField, out, []⟩ w = r :: rs ∧ r.field 0 = out ++ front w := by
  induction w generalizing out with
  | nil =>
      refine ⟨⟨out, [out.length]⟩, [], rfl, ?_⟩
      simp [CsvRow.field, front]
  | cons b w ih =>
      by_cases ends : Delimits b
      · rw [front_delimited ends, List.append_nil]
        by_cases sep : b = comma
        · have is : Partial.byte ⟨.inField, out, []⟩ b =
            (⟨.startField, out, [out.length]⟩, none) := by
            simp [Partial.byte, St.step, St.plain, sep]
          obtain ⟨r, rs, found, leads⟩ := head_leads (q := ⟨.startField, out, [out.length]⟩) rfl
            (fun k mem => (List.mem_singleton.mp mem).le) w
          refine ⟨r, rs, by rw [recordsFrom_cons, is]; exact found, ?_⟩
          rw [show r.field 0 = out.take out.length from leads, List.take_length]
        · obtain ⟨st, is⟩ : ∃ st, Partial.byte ⟨.inField, out, []⟩ b =
              (⟨st, [], []⟩, some ⟨out, [out.length]⟩) := by
            rcases ends with rfl | rfl | rfl
            · exact absurd rfl sep
            · exact ⟨.crlf, rfl⟩
            · exact ⟨.startRecord, rfl⟩
          refine ⟨⟨out, [out.length]⟩, recordsFrom ⟨st, [], []⟩
            w, by rw [recordsFrom_cons, is]; rfl, ?_⟩
          simp [CsvRow.field]
      · have is : Partial.byte ⟨.inField, out, []⟩ b = (⟨.inField, out ++ [b], []⟩, none) := by
          have none_ := not_or.mp ends
          have lines := not_or.mp none_.2
          simp [Partial.byte, St.step, St.plain, none_.1, lines.1, lines.2]
        obtain ⟨r, rs, found, first⟩ := @ih (out ++ [b])
        refine ⟨r, rs, by rw [recordsFrom_cons, is]; exact found, ?_⟩
        rw [first, front_cons ends, List.append_assoc]
        rfl

/-- A field in a quoted text, as far as its first delimiter: it has fewer bytes than the
text, or one of them is a delimiter. -/
theorem head_quoted (begun : q.st = .inQuoted ∨ q.st = .quoteInQuoted ∨ q.st = .inField)
    (one : q.ends = []) (w : List Byte) :
    ∃ r rs, recordsFrom q w = r :: rs ∧
      ((r.field 0).length ≤ q.out.length + (front w).length ∨ ∃ d ∈ r.field 0, Delimits d) := by
  obtain ⟨st, out, ends⟩ := q
  obtain rfl : ends = [] := one
  induction w generalizing st out with
  | nil =>
      refine ⟨⟨out, [out.length]⟩, [], ?_, .inl ?_⟩
      · rcases begun with rfl | rfl | rfl <;> rfl
      · simp [CsvRow.field]
  | cons b w ih =>
      have plain : ∃ r rs, recordsFrom ⟨.inField, out, []⟩ (b :: w) = r :: rs ∧
          (r.field 0).length ≤ out.length + (front (b :: w)).length := by
        obtain ⟨r, rs, found, first⟩ := @head_plain out (b :: w)
        exact ⟨r, rs, found, by rw [first, List.length_append]⟩
      have goes : ∀ {st' more}, (st' = .inQuoted ∨ st' = .quoteInQuoted ∨ st' = .inField) →
          ¬ Delimits b → more.length ≤ 1 → Partial.byte ⟨st, out, []⟩ b =
            (⟨st', out ++ more, []⟩, none) →
          ∃ r rs, recordsFrom ⟨st, out, []⟩ (b :: w) = r :: rs ∧
            ((r.field 0).length ≤ out.length + (front (b :: w)).length ∨ ∃ d ∈ r.field 0,
              Delimits d) := by
        intro st' more begun' free short is
        obtain ⟨r, rs, found, fits | ends⟩ := ih st' (out ++ more) begun'
        · refine ⟨r, rs, by rw [recordsFrom_cons, is]; exact found, .inl ?_⟩
          rw [List.length_append] at fits
          rw [front_cons free, List.length_cons]
          omega
        · exact ⟨r, rs, by rw [recordsFrom_cons, is]; exact found, .inr ends⟩
      have quote_free : ¬ Delimits quote := by decide
      rcases begun with rfl | rfl | rfl
      · by_cases closes : b = quote
        · subst closes
          exact @goes _ [] (.inr (.inl rfl)) quote_free (Nat.zero_le _)
            (by simp [Partial.byte, St.step])
        · have is : Partial.byte ⟨.inQuoted, out, []⟩ b = (⟨.inQuoted, out ++ [b], []⟩, none) := by
            simp [Partial.byte, St.step, closes]
          by_cases ends : Delimits b
          · have within : Within ⟨.inQuoted, out ++ [b], []⟩ := fun k mem => (by cases mem)
            obtain ⟨r, rs, found, leads⟩ := head_leads rfl within w
            refine ⟨r, rs, by rw [recordsFrom_cons, is]; exact found, .inr ⟨b, ?_, ends⟩⟩
            exact List.IsPrefix.mem (by simp) (show out ++ [b] <+: r.field 0 from leads)
          · exact goes (.inl rfl) ends le_rfl is
      · by_cases doubled : b = quote
        · subst doubled
          exact @goes _ [quote] (.inl rfl) quote_free le_rfl (by simp [Partial.byte, St.step])
        · obtain ⟨r, rs, found, short⟩ := plain
          have same : Partial.byte ⟨.quoteInQuoted, out, []⟩ b = Partial.byte
            ⟨.inField, out, []⟩ b := by
            simp [Partial.byte, St.step, doubled, Partial.row]
          exact ⟨r, rs, by rw [← found, recordsFrom_cons, recordsFrom_cons, same], .inl short⟩
      · obtain ⟨r, rs, found, short⟩ := plain
        exact ⟨r, rs, found, .inl short⟩

/-! ## A record behind the mark -/

/-- The same record, with the mark at its front. -/
def Partial.behind (q : Partial) : Partial := ⟨q.st, mark ++ q.out, q.ends.map (3 + ·)⟩

def CsvRow.behind (r : CsvRow) : CsvRow := ⟨mark ++ r.out, r.ends.map (3 + ·)⟩

theorem Partial.row_behind (q : Partial) : q.behind.row = q.row.behind := by
  have three : (mark ++ q.out).length = 3 + q.out.length := List.length_append
  simp only [row, behind, CsvRow.behind, three, List.map_append, List.map_cons, List.map_nil]

theorem Partial.byte_behind (q : Partial) (b : Byte) :
    (∃ q', q.byte b = (q', none) ∧ q.behind.byte b = (q'.behind, none)) ∨
    ∃ q', q.byte b = (q', some q.row) ∧ q.behind.byte b = (q', some q.row.behind) := by
  have three : (mark ++ q.out).length = 3 + q.out.length := List.length_append
  have same : q.behind.st.step b = q.st.step b := rfl
  rcases step : q.st.step b with ⟨st, act⟩
  cases act with
  | skip => exact .inl ⟨⟨st, q.out, q.ends⟩, by simp [byte, step], by simp [byte, step, behind]⟩
  | copy c =>
      refine .inl ⟨⟨st, q.out ++ [c], q.ends⟩, by simp [byte, step], ?_⟩
      simp [byte, step, behind]
  | field =>
      refine .inl ⟨⟨st, q.out, q.ends ++ [q.out.length]⟩, by simp [byte, step], ?_⟩
      simp only [byte, step, behind, three, List.map_append, List.map_cons, List.map_nil]
  | record =>
      refine .inr ⟨⟨st, [], []⟩, by simp [byte, step], ?_⟩
      rw [byte, same, step, ← q.row_behind]

theorem recordsFrom_behind (begun : q.st.between = false) (w : List Byte) :
    ∃ r rs, recordsFrom q w = r :: rs ∧ recordsFrom q.behind w = r.behind :: rs := by
  induction w generalizing q with
  | nil =>
      have last : ∀ q : Partial, q.st.between = false → recordsFrom q [] = [q.row] := by
        intro q begun
        change (Partial.last q).toList = _
        rw [Partial.last, if_neg (by rw [begun]; decide)]
        rfl
      exact ⟨q.row, [], last q begun, by rw [last q.behind begun, Partial.row_behind]⟩
  | cons b w ih =>
      rw [recordsFrom_cons, recordsFrom_cons]
      have begun' : (q.byte b).2 = none → (q.byte b).1.st.between = false := by
        rcases byte_begun begun b with ⟨st, c, begun', is⟩ | ⟨st, begun', is⟩ | ⟨st, is⟩ <;> rw [is]
        · exact fun _ => begun'
        · exact fun _ => begun'
        · intro is
          cases is
      rcases q.byte_behind b with ⟨q', is, is'⟩ | ⟨q', is, is'⟩
      · rw [is] at begun'
        rw [is, is']
        exact ih (begun' rfl)
      · rw [is, is']
        exact ⟨q.row, recordsFrom q' w, rfl, rfl⟩

theorem field_behind_zero {r : CsvRow} (some_ : r.ends ≠ []) :
    r.behind.field 0 = mark ++ r.field 0 := by
  obtain ⟨out, ends⟩ := r
  obtain ⟨k, rest, rfl⟩ := List.exists_cons_of_ne_nil some_
  simp only [CsvRow.field, CsvRow.behind, List.map_cons, List.getD_cons_zero, if_true,
    List.drop_zero,
    Nat.sub_zero]
  exact @List.take_length_add_append _ mark out k

theorem field_behind_succ {r : CsvRow} {i : Nat} (within : i + 1 < r.len) :
    r.behind.field (i + 1) = r.field (i + 1) := by
  obtain ⟨out, ends⟩ := r
  change i + 1 < ends.length at within
  have moved : ∀ {j}, j < ends.length → (ends.map (3 + ·)).getD j 0 = 3 + ends.getD j 0 := by
    intro j in_
    rw [List.getD_eq_getElem _ _ (by rwa [List.length_map]), List.getD_eq_getElem _ _ in_,
      List.getElem_map]
  have dropped : ∀ s, (mark ++ out).drop (3 + s) = out.drop s :=
    fun s => @List.drop_length_add_append _ mark out s
  simp only [CsvRow.field, CsvRow.behind, Nat.add_one_ne_zero, if_false, Nat.add_sub_cancel,
    moved within, moved (Nat.lt_of_succ_lt within), dropped, Nat.add_sub_add_left]

/-- A row's first field is not the mark's: behind a mark it is the same header. -/
theorem header_behind {r : CsvRow} (bare : ¬ mark <+: r.field 0) : r.behind.header = r.header := by
  have same : r.behind.len = r.len := List.length_map _
  rw [CsvRow.header, CsvRow.header, same]
  refine List.map_congr_left fun i mem => ?_
  have within : i < r.len := List.mem_range.mp mem
  cases i with
  | zero =>
      have some_ : r.ends ≠ [] := fun none_ => absurd within (by rw [CsvRow.len, none_]; decide)
      rw [if_pos rfl, if_pos rfl, field_behind_zero some_, unmarked,
        if_pos (List.prefix_append _ _),
        unmarked, if_neg bare]
      rfl
  | succ i => rw [if_neg (Nat.succ_ne_zero i), if_neg (Nat.succ_ne_zero i),
      field_behind_succ within]

/-! ## What follows a split mark -/

theorem records_eq (text : List Byte) : records text = recordsFrom .start text := rfl

/-- A split mark is the front of the first field. -/
theorem records_marked (text : List Byte) :
    records (mark ++ text) = recordsFrom ⟨.inField, mark, []⟩ text := rfl

theorem recordsFrom_crlf (text : List Byte) : recordsFrom ⟨.crlf, [], []⟩ text = records text := by
  cases text with
  | nil => rfl
  | cons b rest =>
      have same : St.step .crlf b = St.step .startRecord b := by
        by_cases line : b = lf
        · rw [line]
          rfl
        · simp only [St.step, if_neg line]
      rw [records_eq, recordsFrom_cons, recordsFrom_cons, Partial.start, Partial.byte,
        Partial.byte, same]
      rfl

/-- A line end behind a split mark ends a record, and is none of a text without it. -/
theorem records_line (line : b = cr ∨ b = lf) (text : List Byte) :
    (records (mark ++ b :: text)).length = (records (b :: text)).length + 1 := by
  have bare : records (b :: text) = records text := by rcases line with rfl | rfl <;> rfl
  have split : records (mark ++ b :: text) = ⟨mark, [3]⟩ :: records text := by
    rw [records_marked, recordsFrom_cons]
    rcases line with rfl | rfl
    · exact congrArg (_ :: ·) (recordsFrom_crlf text)
    · rfl
  rw [split, bare, List.length_cons]

/-! ## The header behind a split mark -/

theorem view_length (rows : List CsvRow) : (view rows).length = rows.length := by
  cases rows with
  | nil => rfl
  | cons header rows => rw [view, List.length_cons, List.length_map, List.length_cons]

/-- The first field of a table. -/
def corner (t : List (List (List Byte))) : Option (List Byte) := t.head?.bind List.head?

theorem corner_view {r : CsvRow} {rs : List CsvRow} (some_ : r.ends ≠ []) :
    corner (view (r :: rs)) = some (unmarked (r.field 0)) := by
  obtain ⟨n, long⟩ : ∃ n, r.len = n + 1 :=
    Nat.exists_eq_succ_of_ne_zero (List.length_pos_iff.mpr some_).ne'
  rw [corner, view, List.head?_cons, Option.bind_some, CsvRow.header, long, List.range_succ_eq_map,
    List.map_cons, List.head?_cons, if_pos rfl]

theorem ends_of_mem {r : CsvRow} (mem : r ∈ recordsFrom q w) : r.ends ≠ [] := by
  have row : ∀ q : Partial, q.row.ends ≠ [] :=
    fun q => List.append_ne_nil_of_right_ne_nil _ (by intro is; cases is)
  induction w generalizing q with
  | nil =>
      rcases List.mem_append.mp mem with none_ | last
      · cases none_
      · rw [Option.mem_toList, Partial.last] at last
        split at last
        · cases last
        · exact Option.some.inj last ▸ row _
  | cons b w ih =>
      rw [recordsFrom_cons] at mem
      rcases List.mem_append.mp mem with here | later
      · rcases step : q.st.step b with ⟨st, act⟩
        cases act <;> simp [Partial.byte, step] at here
        exact here ▸ row q
      · exact ih later

theorem unmarked_append (f : List Byte) : unmarked (mark ++ f) = f :=
  if_pos (List.prefix_append _ _)

theorem unmarked_length (f : List Byte) : (unmarked f).length ≤ f.length := by
  unfold unmarked
  split
  · rw [List.length_drop]
    exact Nat.sub_le _ _
  · exact le_rfl

theorem mem_unmarked {d : Byte} {f : List Byte} (ends : Delimits d) (mem : d ∈ f) :
    d ∈ unmarked f := by
  by_cases front_ : mark <+: f
  · obtain ⟨rest, rfl⟩ := front_
    rw [unmarked_append]
    refine (List.mem_append.mp mem).resolve_left fun marked => ?_
    have none_ : ∀ d ∈ mark, ¬ Delimits d := by decide +kernel
    exact none_ d marked ends
  · rwa [unmarked, if_neg front_]

/-- Its first field reaches to the first delimiter, quotes and all. -/
theorem corner_marked (text : List Byte) :
    corner (view (records (mark ++ text))) = some (front text) := by
  obtain ⟨r, rs, found, first⟩ := @head_plain mark text
  rw [records_marked, found, corner_view (ends_of_mem (found ▸ List.mem_cons_self)), first,
    unmarked_append]

/-- A text whose first byte begins a field that is not quoted. -/
theorem records_plain (none_ : b ≠ quote) (line : ¬ (b = cr ∨ b = lf)) (rest : List Byte) :
    ∃ q, q.st.between = false ∧ (∃ r rs,
      recordsFrom q rest = r :: rs ∧ r.field 0 = front (b :: rest)) ∧
      records (b :: rest) = recordsFrom q rest ∧
      records (mark ++ b :: rest) = recordsFrom q.behind rest := by
  by_cases sep : b = comma
  · subst sep
    refine ⟨⟨.startField, [], [0]⟩, rfl, ?_, rfl, rfl⟩
    obtain ⟨r, rs, found, leads⟩ := head_leads (q := ⟨.startField, [], [0]⟩) rfl
      (fun k mem => (List.mem_singleton.mp mem).le) rest
    exact ⟨r, rs, found, leads⟩
  · have free : ¬ Delimits b := fun ends => ends.elim sep line
    have lines := not_or.mp line
    refine ⟨⟨.inField, [b], []⟩, rfl, ?_, ?_, ?_⟩
    · rw [front_cons free]
      exact @head_plain [b] rest
    · rw [records_eq, recordsFrom_cons]
      simp [Partial.start, Partial.byte, St.step, St.atRecord, St.atField, St.plain, none_, sep,
        lines.1, lines.2]
    · rw [records_marked, recordsFrom_cons]
      simp [Partial.behind, Partial.byte, St.step, St.plain, sep, lines.1, lines.2]

theorem records_quoted (rest : List Byte) :
    ∃ r rs, records (quote :: rest) = r :: rs ∧
      ((r.field 0).length ≤ (front rest).length ∨ ∃ d ∈ r.field 0, Delimits d) := by
  obtain ⟨r, rs, found, first⟩ := head_quoted (q := ⟨.inQuoted, [], []⟩) (.inl rfl) rfl rest
  exact ⟨r, rs, found, by rwa [List.length_nil, Nat.zero_add] at first⟩

/-- The first byte begins a field that is not quoted, and no second mark. -/
def Plain (text : List Byte) : Prop :=
  ∃ b rest, text = b :: rest ∧ b ≠ quote ∧ ¬ (b = cr ∨ b = lf) ∧ ¬ mark <+: text

/-- Behind a split mark the records are the text's when it is plain, and only then. -/
theorem view_marked_iff {text : List Byte} :
    view (records (mark ++ text)) = view (records text) ↔ Plain text := by
  constructor
  · intro same
    have lengths := congrArg List.length same
    rw [view_length, view_length] at lengths
    have corners := congrArg corner same
    rw [corner_marked] at corners
    cases text with
    | nil => exact nomatch lengths
    | cons b rest =>
        have line : ¬ (b = cr ∨ b = lf) := fun line => by
          rw [records_line line] at lengths
          omega
        have none_ : b ≠ quote := by
          rintro rfl
          obtain ⟨r, rs, found, other⟩ := records_quoted rest
          rw [found, corner_view (ends_of_mem (q := .start) (w := quote :: rest) (by
            rw [← records_eq, found]; exact List.mem_cons_self))] at corners
          have first : front (quote :: rest) = unmarked (r.field 0) := Option.some.inj corners
          rcases other with short | ⟨d, mem, ends⟩
          · have less := unmarked_length (r.field 0)
            rw [← first, front_cons (by decide), List.length_cons] at less
            omega
          · exact not_delimits_of_mem_front (first ▸ mem_unmarked ends mem) ends
        refine ⟨b, rest, rfl, none_, line, fun second => ?_⟩
        obtain ⟨rest', is⟩ := second
        have fronts : front (b :: rest) = mark ++ front rest' := by rw [← is]; rfl
        obtain ⟨q, begun, ⟨r, rs, found, first⟩, same, _⟩ := records_plain none_ line rest
        rw [same, found, corner_view (ends_of_mem (found ▸ List.mem_cons_self)), first, fronts,
          unmarked_append] at corners
        have lengths := congrArg List.length (Option.some.inj corners)
        rw [List.length_append] at lengths
        have three : mark.length = 3 := rfl
        omega
  · rintro ⟨b, rest, rfl, none_, line, single⟩
    obtain ⟨q, begun, ⟨r, rs, found, first⟩, same, behind⟩ := records_plain none_ line rest
    obtain ⟨r', rs', found', shifted⟩ := recordsFrom_behind begun rest
    obtain ⟨rfl, rfl⟩ := List.cons.inj (found.symm.trans found')
    have bare : ¬ mark <+: r.field 0 := by
      rw [first]
      exact fun second => single (second.trans (List.takeWhile_prefix _))
    rw [same, behind, found, shifted, view, view, header_behind bare]

end Apitap.Csv
