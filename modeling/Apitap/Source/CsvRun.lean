import Apitap.Source.Csv
import Mathlib.Data.Nat.Log

/-!
# What a pump delivers

However a stream is cut, and whatever room the pump starts with, it delivers the records
of the bytes its parser reads, unless one of them fills the largest buffer before its
last byte is read.
-/

namespace Apitap.Csv

open Foundation

variable {q q' : Partial} {u v w : List Byte} {cap slots room : Nat}

/-- The largest buffer that doubling reaches. -/
def largest (cap maxRecord : Nat) : Nat := cap * 2 ^ Nat.log 2 (maxRecord / cap)

theorem largest_doubled {maxRecord : Nat} (some_room : 0 < cap) (fits : cap * 2 ≤ maxRecord) :
    largest (cap * 2) maxRecord = largest cap maxRecord := by
  have two : 2 ≤ maxRecord / cap := (Nat.le_div_iff_mul_le some_room).mpr (by omega)
  rw [largest, largest, ← Nat.div_div_eq_div_mul, Nat.log_of_one_lt_of_le (by decide)
    two, Nat.pow_succ]
  rw [Nat.mul_assoc, Nat.mul_comm 2]

theorem largest_last {maxRecord : Nat} (some_room : 0 < cap) (past : maxRecord < cap * 2) :
    largest cap maxRecord = cap := by
  have less : maxRecord / cap < 2 := (Nat.div_lt_iff_lt_mul some_room).mpr (by omega)
  rw [largest, Nat.log_of_lt less, Nat.pow_zero, Nat.mul_one]

theorem le_largest {maxRecord : Nat} : cap ≤ largest cap maxRecord :=
  Nat.le_mul_of_pos_right cap (Nat.two_pow_pos _)

/-- A record that fills its buffer. -/
def Partial.Full (cap : Nat) (q : Partial) : Prop := cap ≤ q.out.length

instance : DecidablePred (Partial.Full cap) := fun _ => inferInstanceAs (Decidable (_ ≤ _))

/-- A byte comes where the buffer is full. -/
abbrev Overfull (cap : Nat) (q : Partial) (w : List Byte) : Prop :=
  rfc4180.Blocks (Partial.Full cap) q w

theorem Overfull.less {larger : Nat} (le : cap ≤ larger) (blocks : Overfull larger q w) :
    Overfull cap q w := by
  obtain ⟨u, a, v, split, full⟩ := Transducer.blocks_iff.mp blocks
  exact Transducer.blocks_iff.mpr ⟨u, a, v, split, le.trans full⟩

theorem Partial.byte_length (q : Partial) (b : Byte) :
    (q.byte b).1.out.length ≤ q.out.length + 1 := by
  unfold Partial.byte
  split
  · exact Nat.le_succ _
  · rw [List.length_append]
    exact le_rfl
  · exact Nat.le_succ _
  · exact Nat.zero_le _

/-- A record that did not fill its buffer fits it. -/
theorem fits_of_free (fits : q.out.length ≤ cap) (free : ¬ Overfull cap q w) :
    (rfc4180.state q w).out.length ≤ cap := by
  induction w generalizing q with
  | nil => exact fits
  | cons b w ih =>
      obtain ⟨room, rest⟩ := not_or.mp free
      exact ih ((q.byte_length b).trans (Nat.not_le.mp room)) rest

/-! ## One call -/

/-- What a call of the parser reads of an input, from a record half read. -/
inductive Scans (q : Partial) (w : List Byte) (cap slots : Nat) : Read Seat → Prop
  | more {u v out : List Byte} {ends : List Nat} {st : St} {result : ReadRecordResult}
      (split : w = u ++ v) (none_ : rfc4180.emits q u = [])
      (at_ : rfc4180.state q u = ⟨st, q.out ++ out, q.ends ++ ends⟩) (free : ¬ Overfull cap q u)
      (stops : (result = .inputEmpty ∧ v = []) ∨
        (result = .outputFull ∧ v ≠ [] ∧ (q.out ++ out).length = cap) ∨
        (result = .outputEndsFull ∧ v ≠ [] ∧ (0 < slots → u ≠ []))) :
      Scans q w cap slots ⟨result, u.length, out, ends, ⟨st, (q.out ++ out).length, true⟩⟩
  | record {u v out : List Byte} {ends : List Nat} {st : St}
      (split : w = u ++ v) (row : rfc4180.emits q u = [⟨q.out ++ out, q.ends ++ ends⟩])
      (at_ : rfc4180.state q u = ⟨st, [], []⟩) (free : ¬ Overfull cap q u) :
      Scans q w cap slots ⟨.record, u.length, out, ends, ⟨st, 0, true⟩⟩

/-- A call that reads nothing. -/
theorem Scans.stop {result : ReadRecordResult}
    (stops : (result = .inputEmpty ∧ w = []) ∨ (result = .outputFull ∧ w ≠ [] ∧
      q.out.length = cap) ∨
      (result = .outputEndsFull ∧ w ≠ [] ∧ slots = 0)) :
    Scans q w cap slots ⟨result, 0, [], [], ⟨q.st, q.out.length, true⟩⟩ := by
  have here : rfc4180.state q [] = ⟨q.st, q.out ++ [], q.ends ++ []⟩ := by
    rw [List.append_nil, List.append_nil]
    rfl
  have ended := @Scans.more q w cap slots [] w [] [] q.st result rfl rfl here id
  rw [List.append_nil] at ended
  refine ended ?_
  rcases stops with stop | stop | ⟨is, left, no⟩
  · exact .inl stop
  · exact .inr (.inl stop)
  · exact .inr (.inr ⟨is, left, fun some_ => absurd no some_.ne'⟩)

theorem overfull_cons {b : Byte} {u : List Byte} (free : q.out.length < cap)
    (rest : ¬ Overfull cap (q.byte b).1 u) : ¬ Overfull cap q (b :: u) := fun blocks =>
  blocks.elim (fun full => Nat.not_le.mpr free full) rest

/-- A byte read before the rest. -/
theorem Scans.cons {b : Byte} {r : Read Seat} {st : St} {out : List Byte}
    {ends : List Nat} {left : Nat}
    (is : q.byte b = (⟨st, q.out ++ out, q.ends ++ ends⟩, none)) (free : q.out.length < cap)
    (rest : Scans ⟨st, q.out ++ out, q.ends ++ ends⟩ w cap left r) :
    Scans q (b :: w) cap slots
      { r with nin := r.nin + 1, out := out ++ r.out, ends := ends ++ r.ends } := by
  have one : ∀ {u}, rfc4180.emits q (b :: u) = rfc4180.emits ⟨st, q.out ++ out, q.ends ++ ends⟩ u :=
    fun {u} => by
      change (q.byte b).2.toList ++ rfc4180.emits (q.byte b).1 u = _
      rw [is]
      rfl
  have reaches : ∀ {u}, rfc4180.state q (b :: u) = rfc4180.state ⟨st, q.out ++ out,
    q.ends ++ ends⟩ u :=
    fun {u} => congrArg (rfc4180.state · u) (congrArg Prod.fst is)
  have below : ∀ {u}, ¬ Overfull cap ⟨st, q.out ++ out, q.ends ++ ends⟩ u →
    ¬ Overfull cap q (b :: u) :=
    fun rest => overfull_cons free (by rwa [is])
  cases rest with
  | @more u v out' ends' st' result split none_ at_ free' stops =>
      simp only [List.append_assoc] at at_ stops ⊢
      refine .more (u := b :: u) (by rw [split]; rfl) (one.trans none_) (reaches.trans at_)
        (below free') ?_
      rcases stops with stop | stop | ⟨is, left, _⟩
      · exact .inl stop
      · exact .inr (.inl stop)
      · exact .inr (.inr ⟨is, left, fun _ => nofun⟩)
  | @record u v out' ends' st' split row at_ free' =>
      simp only [List.append_assoc] at row
      exact .record (u := b :: u) (by rw [split]; rfl) (one.trans row)
        (reaches.trans at_) (below free')

theorem scan_scans (w : List Byte) (q : Partial) (room slots : Nat) :
    Scans q w (q.out.length + room) slots (scan q.st q.out.length w room slots) := by
  induction w generalizing q room slots with
  | nil => exact .stop (.inl ⟨rfl, rfl⟩)
  | cons b rest ih =>
      match room, slots with
      | 0, _ => exact .stop (.inr (.inl ⟨rfl, nofun, rfl⟩))
      | _ + 1, 0 => exact .stop (.inr (.inr ⟨rfl, nofun, rfl⟩))
      | room + 1, slots + 1 =>
          have free : q.out.length < q.out.length + (room + 1) := by omega
          rcases step : q.st.step b with ⟨st, act⟩
          rw [scan, step]
          cases act with
          | skip =>
              have is : q.byte b = (⟨st, q.out ++ [], q.ends ++ []⟩, none) := by
                rw [Partial.byte, step, List.append_nil, List.append_nil]
              exact .cons is free (by simpa using ih ⟨st, q.out, q.ends⟩ (room + 1) (slots + 1))
          | copy c =>
              have is : q.byte b = (⟨st, q.out ++ [c], q.ends ++ []⟩, none) := by
                rw [Partial.byte, step, List.append_nil]
              have later := ih ⟨st, q.out ++ [c], q.ends ++ []⟩ room (slots + 1)
              rw [List.length_append, Nat.add_assoc, Nat.add_comm [c].length] at later
              exact .cons is free later
          | field =>
              have is : q.byte b = (⟨st, q.out ++ [], q.ends ++ [q.out.length]⟩, none) := by
                rw [Partial.byte, step, List.append_nil]
              have rest := ih ⟨st, q.out, q.ends ++ [q.out.length]⟩ (room + 1) slots
              exact .cons is free (by simpa using rest)
          | record =>
              have is : q.byte b = (⟨st, [], []⟩, some q.row) := by rw [Partial.byte, step]
              have row : rfc4180.emits q [b] = [⟨q.out ++ [], q.ends ++ [q.out.length]⟩] := by
                change (q.byte b).2.toList ++ [] = _
                rw [is, List.append_nil, List.append_nil]
                rfl
              exact .record (u := [b]) rfl row (congrArg Prod.fst is) (overfull_cons free id)

/-! ## One record -/

namespace CsvPump

variable {core : CsvCore} {p p' : CsvPump core} {top maxRecord n : Nat} {fresh : Bool}
  {x : List Byte}

/-- The pump before its next record: a delivered one is dropped. -/
def settle (p : CsvPump core) : CsvPump core :=
  if p.rowReady then { p with out := [], ends := [], rowReady := false } else p

/-- The bytes of an input that are read as text: all but a mark its first read starts
with. -/
def effective (fresh : Bool) (x : List Byte) : List Byte :=
  if fresh ∧ mark <+: x then x.drop 3 else x

/-- A pump that has read a record so far, with bytes to read. -/
structure Holds (resumes : core.Resumes) (top maxRecord : Nat) (fresh : Bool) (q : Partial)
    (x : List Byte) (p : CsvPump core) : Prop where
  seat : resumes.seat p.rdr = ⟨q.st, q.out.length, !fresh⟩
  input : p.input.drop p.consumed = x
  out : p.out = q.out
  ends : p.ends = q.ends
  ready : p.rowReady = false
  bound : p.maxRecord = maxRecord
  largest : Csv.largest p.cap maxRecord = top
  room : q.out.length ≤ p.cap
  cap : 0 < p.cap
  scratch : 0 < p.scratch
  begins : fresh = true → q = .start

variable {resumes : core.Resumes}

theorem Holds.settled (holds : Holds resumes top maxRecord fresh q x p) : p.settle = p :=
  if_neg (by rw [holds.ready]; decide)

/-- What `next_record` finds in a text. -/
inductive Next (resumes : core.Resumes) (top maxRecord : Nat) (q : Partial) (w : List Byte) :
    Except Refusal (Option CsvRow) × CsvPump core → Prop
  | row {u v : List Byte} {row : CsvRow} {p : CsvPump core} (split : w = u ++ v)
      (row_ : rfc4180.emits q u = [row]) (free : ¬ Overfull top q u)
      (holds : Holds resumes top maxRecord false (rfc4180.state q u) v p.settle) :
      Next resumes top maxRecord q w (.ok (some row), p)
  | more {p : CsvPump core} (none_ : rfc4180.emits q w = []) (free : ¬ Overfull top q w)
      (holds : Holds resumes top maxRecord false (rfc4180.state q w) [] p.settle) :
      Next resumes top maxRecord q w (.ok none, p)
  | full {p : CsvPump core} (blocks : Overfull top q w) :
      Next resumes top maxRecord q w (.error (.onePast (maxRecord >>> 20)), p)

theorem Next.after {got : Except Refusal (Option CsvRow) × CsvPump core} (split : w = u ++ v)
    (none_ : rfc4180.emits q u = []) (free : ¬ Overfull top q u)
    (next : Next resumes top maxRecord (rfc4180.state q u) v got) :
    Next resumes top maxRecord q w got := by
  have both : ∀ {t}, rfc4180.emits q (u ++ t) = rfc4180.emits (rfc4180.state q u) t := by
    intro t
    rw [Transducer.emits_append, none_, List.nil_append]
  have below : ∀ {t}, ¬ Overfull top (rfc4180.state q u) t → ¬ Overfull top q (u ++ t) := by
    intro t rest blocks
    exact (Transducer.blocks_append.mp blocks).elim free rest
  subst split
  cases next with
  | row split row_ free' holds =>
      subst split
      rw [← List.append_assoc]
      exact .row rfl (both.trans row_) (below free') (by rwa [Transducer.state_append])
  | more none_' free' holds =>
      exact .more (both.trans none_') (below free') (by rwa [Transducer.state_append])
  | full blocks => exact .full (Transducer.blocks_append.mpr (.inr blocks))

/-- What is skipped of the first input. -/
def skipped (fresh : Bool) (x : List Byte) : Nat := if fresh ∧ mark <+: x then 3 else 0

theorem drop_skipped : x.drop (skipped fresh x) = effective fresh x := by
  rw [skipped, effective]
  split <;> rfl

theorem readRecord_text {st : St} {pos : Nat} (some_ : effective fresh x ≠ []) :
    readRecord ⟨st, pos, !fresh⟩ x room slots =
      { scan st pos (effective fresh x) room slots with
        nin := (scan st pos (effective fresh x) room slots).nin + skipped fresh x } := by
  have same : (if ¬ (!fresh) ∧ mark <+: x then 3 else 0) = skipped fresh x := by
    cases fresh <;> simp [skipped]
  rw [readRecord]
  simp only [same, drop_skipped]
  cases text : effective fresh x with
  | nil => exact absurd text some_
  | cons b rest => rfl

/-- The pump once a call has answered. -/
def called (p : CsvPump core) (r : Read core.Reader) : CsvPump core :=
  { p with
    rdr := r.reader, ends := p.ends ++ r.ends, out := p.out ++ r.out
    consumed := p.consumed + r.nin }

theorem Holds.called {r : Read core.Reader} {st : St} {out : List Byte} {ends : List Nat}
    (holds : Holds resumes top maxRecord fresh q x p) (drops : x.drop r.nin = v)
    (outs : r.out = out) (marks : r.ends = ends)
    (seat : resumes.seat r.reader = ⟨st, (q.out ++ out).length, true⟩)
    (fits : (q.out ++ out).length ≤ p.cap) :
    Holds resumes top maxRecord false ⟨st, q.out ++ out, q.ends ++ ends⟩ v (p.called r) where
  seat := seat
  input := by rw [← drops, ← holds.input, List.drop_drop]; rfl
  out := by rw [← holds.out, ← outs]; rfl
  ends := by rw [← holds.ends, ← marks]; rfl
  ready := holds.ready
  bound := holds.bound
  largest := holds.largest
  room := fits
  cap := holds.cap
  scratch := holds.scratch
  begins := nofun

/-- What a call's answer makes of a turn before the end of the data. -/
def answer (n : Nat) (p : CsvPump core) (r : Read core.Reader) :
    Option (Except Refusal (Option CsvRow) × CsvPump core) :=
  match r.result with
  | .record => some (.ok (some ⟨(p.called r).out, (p.called r).ends⟩),
      { p.called r with rowReady := true })
  | .finished => some (.ok none, p.called r)
  | .inputEmpty => some (.ok none, p.called r)
  | .outputFull =>
      if p.cap * 2 > p.maxRecord then some (.error (.onePast (p.maxRecord >>> 20)), p.called r)
      else turns false n { p.called r with cap := p.cap * 2 }
  | .outputEndsFull => turns false n { p.called r with scratch := p.scratch * 2 }

theorem turns_answer (some_ : p.input.drop p.consumed ≠ []) : turns false (n + 1) p =
    answer n p (core.readRecord p.rdr (p.input.drop p.consumed) (p.cap - p.out.length)
      p.scratch) := by
  have goes : (p.input.drop p.consumed).isEmpty = false := by
    cases left : p.input.drop p.consumed with
    | nil => exact absurd left some_
    | cons b x => rfl
  rw [turns]
  simp only [goes]
  rfl

/-- One turn of the loop: it ends with a record, with nothing more to read, or with a
refusal, or it goes on from where it stopped with less left to do. -/
theorem turn (holds : Holds resumes top maxRecord fresh q x p) (some_ : effective fresh x ≠ [])
    (n : Nat) :
    (∃ got, turns false (n + 1) p = some got ∧
      Next resumes top maxRecord q (effective fresh x) got) ∨
    ∃ u v p', effective fresh x = u ++ v ∧ rfc4180.emits q u = [] ∧ ¬ Overfull top q u ∧
      Holds resumes top maxRecord false (rfc4180.state q u) v p' ∧
      v.length + (maxRecord + 1 - p'.cap) < (effective fresh x).length + (maxRecord + 1 - p.cap) ∧
      turns false (n + 1) p = turns false n p' := by
  have given : p.input.drop p.consumed ≠ [] := by
    rw [holds.input]
    rintro rfl
    exact some_ (by unfold effective; split <;> rfl)
  have read := resumes.read p.rdr x (p.cap - q.out.length) p.scratch
  have scans := scan_scans (effective fresh x) q (p.cap - q.out.length) p.scratch
  rw [Nat.add_sub_cancel' holds.room] at scans
  rw [holds.seat, readRecord_text some_] at read
  rw [turns_answer given, holds.input, holds.out]
  generalize core.readRecord p.rdr x (p.cap - q.out.length) p.scratch = r at *
  generalize scan q.st q.out.length (effective fresh x) (p.cap - q.out.length)
    p.scratch = wanted at *
  have below : p.cap ≤ top := holds.largest ▸ le_largest
  have within : ∀ {u}, ¬ Overfull p.cap q u → ¬ Overfull top q u :=
    fun free blocks => free (blocks.less below)
  have rest : ∀ {u v}, effective fresh x = u ++ v → r.nin = u.length + skipped fresh x →
    x.drop r.nin = v := by
    intro u v split nin
    rw [nin, Nat.add_comm, ← List.drop_drop, drop_skipped, split, List.drop_left]
  obtain ⟨result, nin, outs, marks, seat⟩ := read
  cases scans with
  | @more u v out ends st result' split none_ at_ free stops =>
      replace result : r.result = result' := result
      have fits : (q.out ++ out).length ≤ p.cap := by
        have fits := fits_of_free holds.room free
        rwa [at_] at fits
      have then_ := holds.called (rest split nin) outs marks seat fits
      rw [← at_] at then_
      rcases stops with ⟨rfl, rfl⟩ | ⟨rfl, left, full⟩ | ⟨rfl, left, moves⟩
      · refine .inl ⟨_, by rw [answer, result], ?_⟩
        rw [split, List.append_nil]
        exact .more none_ (within free) (then_.settled.symm ▸ then_)
      · by_cases more : p.cap * 2 > p.maxRecord
        · refine .inl ⟨_, by rw [answer, result]; exact if_pos more, ?_⟩
          rw [split, holds.bound]
          obtain ⟨b, v, rfl⟩ := List.exists_cons_of_ne_nil left
          refine .full (Transducer.blocks_iff.mpr ⟨u, b, v, rfl, ?_⟩)
          rw [at_, Partial.Full, full, ← holds.largest, largest_last holds.cap (holds.bound ▸ more)]
        · refine .inr ⟨u, v, { p.called r with cap := p.cap * 2 }, split, none_,
            within free, ?_, ?_, ?_⟩
          · have doubles := Nat.not_lt.mp more
            rw [holds.bound] at doubles
            exact
              { then_ with
                largest := (largest_doubled holds.cap doubles).trans holds.largest
                room := then_.room.trans (Nat.le_mul_of_pos_right _ (by decide))
                cap := Nat.mul_pos holds.cap (by decide) }
          · have doubles := Nat.not_lt.mp more
            have some_cap := holds.cap
            rw [holds.bound] at doubles
            rw [split, List.length_append]
            change v.length + (maxRecord + 1 - p.cap * 2) < _
            omega
          · rw [answer, result]
            exact if_neg more
      · refine .inr ⟨u, v, { p.called r with scratch := p.scratch * 2 }, split, none_,
          within free, ?_, ?_, ?_⟩
        · exact { then_ with scratch := Nat.mul_pos holds.scratch (by decide) }
        · have reads : 0 < u.length := List.length_pos_iff.mpr (moves holds.scratch)
          rw [split, List.length_append]
          change v.length + (maxRecord + 1 - p.cap) < _
          omega
        · rw [answer, result]
  | @record u v out ends st split row at_ free =>
      replace result : r.result = .record := result
      refine .inl ⟨_, by rw [answer, result], ?_⟩
      rw [split]
      have is : CsvRow.mk (p.called r).out (p.called r).ends = ⟨q.out ++ out, q.ends ++ ends⟩ :=
        congrArg₂ CsvRow.mk (congrArg₂ (· ++ ·) holds.out outs)
          (congrArg₂ (· ++ ·) holds.ends marks)
      rw [is]
      refine .row rfl row (within free) ?_
      rw [at_]
      have unread : (p.input.drop (p.consumed + r.nin)) = v := by
        rw [← rest split nin, ← holds.input, List.drop_drop]
      exact
        { seat := seat, input := unread, out := rfl, ends := rfl, ready :=
          rfl, bound := holds.bound,
          largest := holds.largest, room := Nat.zero_le _, cap :=
            holds.cap, scratch := holds.scratch
          begins := nofun }

theorem effective_false : effective false x = x := if_neg (fun both => nomatch both.1)

/-- What the loop finds when it is not at the end of the data. -/
theorem turns_next (holds : Holds resumes top maxRecord false q w p)
    (enough : w.length + (maxRecord + 1 - p.cap) < n) :
    ∃ got, turns false n p = some got ∧ Next resumes top maxRecord q w got := by
  induction n generalizing q w p with
  | zero => exact absurd enough (Nat.not_lt_zero _)
  | succ n ih =>
      by_cases none_ : w = []
      · subst none_
        have done : turns false (n + 1) p = some (.ok none, p) := by
          rw [turns, holds.input]
          rfl
        exact ⟨_, done, .more rfl id (holds.settled.symm ▸ holds)⟩
      · rcases turn holds (by rwa [effective_false]) n with found | ⟨u, v, p', split, none_', free,
          next, less, is⟩
        · rwa [effective_false] at found
        · rw [effective_false] at split less
          obtain ⟨got, runs, next⟩ := ih next (by omega)
          exact ⟨got, is.trans runs, next.after split none_' free⟩

theorem mark_of_effective (some_ : x ≠ []) (only : effective fresh x = []) : fresh = true ∧
    x = mark := by
  obtain ⟨rfl, begins⟩ : fresh = true ∧ mark <+: x := by
    by_contra other
    exact some_ ((if_neg other).symm.trans only)
  obtain ⟨rest, rfl⟩ := begins
  rw [effective, if_pos ⟨rfl, List.prefix_append _ _⟩] at only
  exact ⟨rfl, (congrArg (mark ++ ·) only).trans (List.append_nil _)⟩

/-- A first input that is only a mark leaves the reader at its start. -/
theorem turns_mark {pos : Nat} (seat : resumes.seat p.rdr = ⟨.startRecord, pos, false⟩)
    (input : p.input.drop p.consumed = mark) :
    ∃ r, r.nin = 3 ∧ r.out = [] ∧ r.ends = [] ∧ resumes.seat r.reader = ⟨.startRecord, pos, true⟩ ∧
      turns false (n + 1) p = some (.ok none, p.called r) := by
  obtain ⟨result, nin, outs, marks, seat'⟩ :=
    resumes.read p.rdr mark (p.cap - p.out.length) p.scratch
  rw [seat] at result nin outs marks seat'
  replace result : _ = ReadRecordResult.finished := result
  refine ⟨_, nin, outs, marks, seat', ?_⟩
  rw [turns_answer (by rw [input]; nofun), input, answer, result]

theorem turn_mark (holds : Holds resumes top maxRecord fresh q x p) (some_ : x ≠ [])
    (only : effective fresh x = []) : ∃ got, turns false (n + 1) p = some got ∧
      Next resumes top maxRecord q (effective fresh x) got := by
  obtain ⟨rfl, rfl⟩ := mark_of_effective some_ only
  obtain rfl := holds.begins rfl
  obtain ⟨r, nin, outs, marks, seat, runs⟩ := turns_mark (n := n) holds.seat holds.input
  have then_ : Holds resumes top maxRecord false ⟨.startRecord, [] ++ [], [] ++ []⟩ []
    (p.called r) :=
    holds.called (by rw [nin]; rfl) outs marks seat (Nat.zero_le _)
  refine ⟨_, runs, ?_⟩
  rw [only]
  exact .more rfl id (then_.settled.symm ▸ then_)

theorem effective_length : (effective fresh x).length ≤ x.length := by
  rw [← drop_skipped, List.length_drop]
  exact Nat.sub_le _ _

theorem nextRecord_next (holds : Holds resumes top maxRecord fresh q x p.settle)
    (used : fresh = true → x ≠ []) (enough : x.length + maxRecord + 2 < n) :
    ∃ got, nextRecord n false p = some got ∧ Next resumes top maxRecord q (effective
      fresh x) got := by
  change ∃ got, turns false n p.settle = some got ∧ _
  cases first : fresh with
  | false =>
      subst first
      rw [effective_false]
      exact turns_next holds (by omega)
  | true =>
      subst first
      obtain ⟨n, rfl⟩ : ∃ k, n = k + 1 := ⟨n - 1, by omega⟩
      by_cases only : effective true x = []
      · exact turn_mark holds (used rfl) only
      · rcases turn holds only n with found | ⟨u, v, p', split, none_, free, next, less, is⟩
        · exact found
        · have shorter : (effective true x).length ≤ x.length := effective_length
          obtain ⟨got, runs, next⟩ := turns_next (n := n) next (by omega)
          exact ⟨got, is.trans runs, next.after split none_ free⟩

/-! ## A stream -/

/-- What the records of a chunk come to. -/
theorem drain_text {m : Nat} (holds : Holds resumes top maxRecord fresh q x p.settle)
    (used : fresh = true → x ≠ []) (enough : x.length + maxRecord + 2 < n)
    (turns_ : (effective fresh x).length < m) :
    (Overfull top q (effective fresh x) →
      ∃ p', drain n false m p = some (.error (.onePast (maxRecord >>> 20)), p')) ∧
    (¬ Overfull top q (effective fresh x) →
      ∃ p', drain n false m p = some (.ok (rfc4180.emits q (effective fresh x)), p') ∧
        Holds resumes top maxRecord false (rfc4180.state q (effective fresh x)) [] p'.settle) := by
  induction m generalizing fresh q x p with
  | zero => exact absurd turns_ (Nat.not_lt_zero _)
  | succ m ih =>
      have shorter : (effective fresh x).length ≤ x.length := effective_length
      obtain ⟨got, runs, next⟩ := nextRecord_next holds used enough
      rw [drain, runs]
      generalize effective fresh x = w at *
      cases next with
      | @row u v row p' split row_ free holds' =>
          subst split
          have reads : 0 < u.length := by
            cases u with
            | nil => exact nomatch row_
            | cons b u => exact Nat.succ_pos _
          rw [List.length_append] at turns_ shorter
          obtain ⟨fails, goes⟩ := ih holds' nofun (by omega) (by rw [effective_false]; omega)
          rw [effective_false] at fails goes
          constructor
          · intro blocks
            obtain ⟨p'', later⟩ := fails ((Transducer.blocks_append.mp blocks).resolve_left free)
            exact ⟨p'', by simp only [later]⟩
          · intro clear
            obtain ⟨p'', later, at_⟩ := goes
              (fun blocks => clear (Transducer.blocks_append.mpr (.inr blocks)))
            refine ⟨p'', ?_, by rwa [Transducer.state_append]⟩
            simp only [later]
            rw [Transducer.emits_append, row_]
            rfl
      | more none_ free holds' =>
          exact ⟨fun blocks => absurd blocks free, fun _ => ⟨_, by rw [none_], holds'⟩⟩
      | full blocks => exact ⟨fun _ => ⟨_, rfl⟩, fun free => absurd blocks free⟩

theorem Holds.settle (holds : Holds resumes top maxRecord fresh q x p.settle) :
    p.settle.settle = p.settle := holds.settled

theorem readRecord_end {st : St} {pos : Nat} {hasRead : Bool} (some_ : slots ≠ 0) :
    readRecord ⟨st, pos, hasRead⟩ [] room slots =
      if st.between then ⟨.finished, 0, [], [], ⟨.startRecord, pos, true⟩⟩
      else ⟨.record, 0, [], [pos], ⟨.startRecord, 0, true⟩⟩ := by
  have none_ : (if ¬ hasRead = true ∧ mark <+: [] then 3 else 0) = 0 :=
    if_neg (fun both => nomatch both.2)
  rw [readRecord]
  simp only [none_, List.drop_nil, flush, some_, if_false]
  split <;> rfl

/-- At the end of the data the record that has begun is the last. -/
theorem turns_end (holds : Holds resumes top maxRecord fresh q [] p) :
    ∃ p', turns true (n + 1) p = some (.ok q.last, p') ∧
      (q.last ≠ none → Holds resumes top maxRecord false .start [] p'.settle) := by
  have read := resumes.read p.rdr [] (p.cap - p.out.length) p.scratch
  rw [holds.seat, readRecord_end holds.scratch.ne'] at read
  rw [turns, holds.input]
  simp only [Partial.last]
  generalize core.readRecord p.rdr [] (p.cap - p.out.length) p.scratch = r at *
  cases between : q.st.between with
  | true =>
      rw [if_pos between] at read
      obtain ⟨result, _⟩ := read
      replace result : r.result = .finished := result
      exact ⟨p.called r, by simp [result, called], fun some_ => absurd rfl some_⟩
  | false =>
      rw [if_neg (by rw [between]; decide)] at read
      obtain ⟨result, nin, outs, marks, seat⟩ := read
      replace result : r.result = .record := result
      have row : CsvRow.mk (p.out ++ r.out) (p.ends ++ r.ends) = q.row := by
        rw [outs, marks, holds.out, holds.ends, List.append_nil]
        rfl
      have unread : p.input.drop (p.consumed + r.nin) = [] := by
        rw [← List.drop_drop, holds.input, List.drop_nil]
      refine ⟨{ p.called r with rowReady := true }, by simp [result, row, called], fun _ => ?_⟩
      exact
        { seat := seat, input := unread, out := rfl, ends := rfl, ready := rfl, bound := holds.bound
          largest := holds.largest, room := Nat.zero_le _, cap :=
            holds.cap, scratch := holds.scratch
          begins := nofun }

theorem drain_end {m : Nat} (holds : Holds resumes top maxRecord fresh q [] p.settle) :
    ∃ p', drain (n + 1) true (m + 2) p = some (.ok q.last.toList, p') := by
  obtain ⟨p', runs, next⟩ := turns_end (n := n) holds
  have first : nextRecord (n + 1) true p = some (.ok q.last, p') := runs
  rw [drain, first]
  cases last : q.last with
  | none => exact ⟨p', rfl⟩
  | some row =>
      obtain ⟨p'', runs', _⟩ := turns_end (n := n) (next (by rw [last]; nofun))
      have second : nextRecord (n + 1) true p' = some (.ok none, p'') := runs'
      refine ⟨p'', ?_⟩
      simp only [drain, second]
      rfl

theorem Holds.feed {chunk : List Byte} (holds : Holds resumes top maxRecord fresh q [] p.settle) :
    Holds resumes top maxRecord fresh q chunk (p.feed chunk).settle := by
  have same : (p.feed chunk).settle = p.settle.feed chunk := by
    cases ready : p.rowReady <;> simp [CsvPump.settle, CsvPump.feed, ready]
  have unread : (p.settle.feed chunk).input.drop 0 = chunk := by
    change p.settle.input.drop p.settle.consumed ++ chunk = chunk
    rw [holds.input]
    rfl
  rw [same]
  exact { holds with input := unread }

theorem drain_none {m : Nat} (ready : p.settle.input.drop p.settle.consumed = []) :
    drain (n + 1) false (m + 1) p = some (.ok [], p.settle) := by
  have first : nextRecord (n + 1) false p = some (.ok none, p.settle) := by
    change turns false (n + 1) p.settle = _
    rw [turns, ready]
    rfl
  rw [drain, first]

/-- The bytes of a stream that are read as text. -/
def text (fresh : Bool) : List (List Byte) → List Byte
  | [] => []
  | chunk :: rest => if chunk = [] then text fresh rest else effective fresh chunk ++ rest.flatten

theorem text_false (chunks : List (List Byte)) : text false chunks = chunks.flatten := by
  induction chunks with
  | nil => rfl
  | cons chunk rest ih =>
      rw [text, effective_false, ih, List.flatten_cons]
      split
      next none_ => rw [none_]; rfl
      next => rfl

/-- What a stream comes to: the records of its text, unless one of them fills the largest
buffer before its last byte is read. -/
theorem stream_text {chunks : List (List Byte)}
    (holds : Holds resumes top maxRecord fresh q [] p.settle)
    (enough : chunks.flatten.length + maxRecord + 2 < n) :
    stream n chunks p =
      if Overfull top q (text fresh chunks) then some (.error (.onePast (maxRecord >>> 20)))
      else some (.ok (rfc4180.emits q (text fresh chunks) ++
        (rfc4180.state q (text fresh chunks)).last.toList)) := by
  induction chunks generalizing fresh q p with
  | nil =>
      obtain ⟨n, rfl⟩ : ∃ k, n = k + 2 := ⟨n - 2, by omega⟩
      obtain ⟨p', runs⟩ := drain_end (n := n + 1) (m := n) holds
      rw [stream, runs, text, if_neg (show ¬ Overfull top q [] from id)]
      rfl
  | cons chunk rest ih =>
      rw [List.flatten_cons, List.length_append] at enough
      by_cases none_ : chunk = []
      · subst none_
        obtain ⟨n, rfl⟩ : ∃ k, n = k + 1 := ⟨n - 1, by omega⟩
        have fed : Holds resumes top maxRecord fresh q [] (p.feed []).settle := holds.feed
        have runs := drain_none (n := n) (m := n) fed.input
        rw [stream, runs, text, if_pos rfl]
        have rest_ := ih (p := (p.feed []).settle) (fed.settle.symm ▸ fed) (by simpa using enough)
        by_cases blocks : Overfull top q (text fresh rest)
        · rw [if_pos blocks] at rest_ ⊢
          simp only [rest_]
        · rw [if_neg blocks] at rest_ ⊢
          simp only [rest_]
          rfl
      · have fed : Holds resumes top maxRecord fresh q chunk (p.feed chunk).settle := holds.feed
        have shorter : (effective fresh chunk).length ≤ chunk.length := effective_length
        have room : chunk.length + maxRecord + 2 < n := by omega
        have more : (effective fresh chunk).length < n := by omega
        obtain ⟨fails, goes⟩ := drain_text fed (fun _ => none_) room more
        rw [stream, text, if_neg none_]
        by_cases blocks : Overfull top q (effective fresh chunk)
        · obtain ⟨p', runs⟩ := fails blocks
          rw [runs, if_pos (Transducer.blocks_append.mpr (.inl blocks))]
        · obtain ⟨p', runs, at_⟩ := goes blocks
          have rest_ := ih at_ (by omega)
          rw [text_false] at rest_
          rw [runs]
          by_cases later : Overfull top (rfc4180.state q (effective fresh chunk)) rest.flatten
          · rw [if_pos later] at rest_
            rw [if_pos (Transducer.blocks_append.mpr (.inr later))]
            simp only [rest_]
          · have clear : ¬ Overfull top q (effective fresh chunk ++ rest.flatten) := fun both =>
              (Transducer.blocks_append.mp both).elim blocks later
            rw [if_neg later] at rest_
            rw [if_neg clear, Transducer.emits_append, Transducer.state_append]
            simp only [rest_, List.append_assoc]

/-! ## A pump without room -/

/-- A pump at the start of a record whose output or ends have no room at all: doubling
adds none. -/
structure Starved (resumes : core.Resumes) (fresh : Bool) (x : List Byte) (p : CsvPump core) :
    Prop where
  seat : resumes.seat p.rdr = ⟨.startRecord, 0, !fresh⟩
  input : p.input.drop p.consumed = x
  out : p.out = []
  ready : p.rowReady = false
  short : p.cap = 0 ∨ p.scratch = 0

theorem Starved.settled (starved : Starved resumes fresh x p) : p.settle = p :=
  if_neg (by rw [starved.ready]; decide)

theorem scan_starved {st : St} {pos : Nat} (some_ : w ≠ []) (short : room = 0 ∨ slots = 0) :
    ∃ result, scan st pos w room slots = ⟨result, 0, [], [], ⟨st, pos, true⟩⟩ ∧
      (result = .outputFull ∧ room = 0 ∨ result = .outputEndsFull) := by
  obtain ⟨b, rest, rfl⟩ := List.exists_cons_of_ne_nil some_
  match room, slots, short with
  | 0, _, _ => exact ⟨.outputFull, rfl, .inl ⟨rfl, rfl⟩⟩
  | _ + 1, 0, _ => exact ⟨.outputEndsFull, rfl, .inr rfl⟩

theorem given_of_effective (some_ : effective fresh x ≠ []) : x ≠ [] := by
  rintro rfl
  exact some_ (by unfold effective; split <;> rfl)

/-- It asks for room forever. -/
theorem turns_starved (starved : Starved resumes fresh x p) (some_ : effective fresh x ≠ []) :
    turns false n p = none := by
  induction n generalizing fresh x p with
  | zero => rfl
  | succ n ih =>
      have read := resumes.read p.rdr x p.cap p.scratch
      rw [starved.seat, readRecord_text some_] at read
      have given := given_of_effective some_
      rw [turns_answer (by rwa [starved.input]), starved.input, starved.out]
      simp only [List.length_nil, Nat.sub_zero]
      generalize core.readRecord p.rdr x p.cap p.scratch = r at *
      obtain ⟨result', is, stops⟩ :=
        scan_starved some_ starved.short
      rw [is] at read
      obtain ⟨result, nin, outs, marks, seat⟩ := read
      replace result : r.result = result' := result
      replace nin : r.nin = 0 + skipped fresh x := nin
      have unread : p.input.drop (p.consumed + r.nin) = effective fresh x := by
        rw [← List.drop_drop, starved.input, nin, Nat.zero_add, drop_skipped]
      replace outs : r.out = [] := outs
      have empty : p.out ++ r.out = [] := by rw [starved.out, outs]; rfl
      have left : effective false (effective fresh x) ≠ [] := by rwa [effective_false]
      rcases stops with ⟨rfl, no⟩ | rfl
      · rw [answer, result]
        simp only [no]
        rw [if_neg (by omega)]
        refine ih (?_ : Starved resumes false (effective fresh x) _) left
        exact ⟨seat, unread, empty, starved.ready, .inl rfl⟩
      · rw [answer, result]
        refine ih (?_ : Starved resumes false (effective fresh x) _) left
        exact ⟨seat, unread, empty, starved.ready, starved.short.imp id (fun no => by rw [no])⟩

theorem Starved.feed {chunk : List Byte} (starved : Starved resumes fresh [] p) :
    Starved resumes fresh chunk (p.feed chunk) := by
  have unread : (p.feed chunk).input.drop 0 = chunk := by
    change p.input.drop p.consumed ++ chunk = chunk
    rw [starved.input]
    rfl
  exact { starved with input := unread }

/-- A chunk that is only the mark leaves it as it is. -/
theorem Starved.mark {chunk : List Byte} {m : Nat} (starved : Starved resumes fresh chunk p)
    (some_ : chunk ≠ []) (only : effective fresh chunk = []) :
    ∃ p', Starved resumes false [] p' ∧ drain (n + 1) false (m + 1) p = some (.ok [], p') := by
  obtain ⟨rfl, rfl⟩ := mark_of_effective some_ only
  obtain ⟨r, nin, outs, marks, seat, runs⟩ := turns_mark (n := n) starved.seat starved.input
  have unread : p.input.drop (p.consumed + r.nin) = [] := by
    rw [← List.drop_drop, starved.input, nin]
    rfl
  have empty : p.out ++ r.out = [] := by rw [starved.out, outs]; rfl
  have first : nextRecord (n + 1) false p = some (.ok none, p.called r) := by
    change turns false (n + 1) p.settle = _
    rw [starved.settled, runs]
  exact ⟨p.called r, ⟨seat, unread, empty, starved.ready, starved.short⟩, by rw [drain, first]⟩

/-- A text but for the mark is never read. -/
theorem stream_starved {chunks : List (List Byte)} (starved : Starved resumes fresh [] p)
    (some_ : text fresh chunks ≠ []) : stream n chunks p = none := by
  induction chunks generalizing fresh p with
  | nil => exact absurd rfl some_
  | cons chunk rest ih =>
      match n with
      | 0 => rfl
      | n + 1 =>
          have fed : Starved resumes fresh chunk (p.feed chunk) := starved.feed
          rw [text] at some_
          by_cases none_ : chunk = []
          · subst none_
            rw [if_pos rfl] at some_
            have runs := drain_none (n := n) (m := n) (p := p.feed [])
              (by rw [fed.settled, fed.input])
            rw [fed.settled] at runs
            rw [stream, runs]
            simp only [ih fed some_]
          · rw [if_neg none_] at some_
            by_cases only : effective fresh chunk = []
            · rw [only, List.nil_append, ← text_false] at some_
              obtain ⟨p', then_, runs⟩ := fed.mark (n := n) (m := n) none_ only
              rw [stream, runs]
              simp only [ih then_ some_]
            · have first : nextRecord (n + 1) false (p.feed chunk) = none := by
                change turns false (n + 1) (p.feed chunk).settle = none
                rw [fed.settled]
                exact turns_starved fed only
              rw [stream, drain, first]

/-- The end of a text of which nothing was read. -/
theorem drain_end_starved {m : Nat} (starved : Starved resumes fresh [] p) :
    ∃ p', drain (n + 1) true (m + 1) p = some (.ok [], p') := by
  obtain ⟨result, _⟩ := resumes.read p.rdr [] (p.cap - p.out.length) p.scratch
  have none_ : (if ¬ (!fresh) = true ∧ mark <+: [] then 3 else 0) = 0 :=
    if_neg (fun both => nomatch both.2)
  have finished : (core.readRecord p.rdr [] (p.cap - p.out.length) p.scratch).result =
    .finished := by
    rw [result, starved.seat, readRecord]
    simp only [none_, List.drop_nil]
    rfl
  have first : nextRecord (n + 1) true p =
      some (.ok none, p.called (core.readRecord p.rdr [] (p.cap - p.out.length) p.scratch)) := by
    change turns true (n + 1) p.settle = _
    rw [starved.settled, turns, starved.input]
    simp [finished, called]
  exact ⟨_, by rw [drain, first]⟩

/-- A stream without text is answered all the same. -/
theorem stream_idle {chunks : List (List Byte)} (starved : Starved resumes fresh [] p)
    (none_ : text fresh chunks = []) : stream (n + 1) chunks p = some (.ok []) := by
  induction chunks generalizing fresh p with
  | nil =>
      obtain ⟨p', runs⟩ := drain_end_starved (n := n) (m := n) starved
      rw [stream, runs]
      rfl
  | cons chunk rest ih =>
      have fed : Starved resumes fresh chunk (p.feed chunk) := starved.feed
      rw [text] at none_
      split at none_
      next empty =>
        subst empty
        have runs := drain_none (n := n) (m := n) (p := p.feed []) (by rw [fed.settled, fed.input])
        rw [fed.settled] at runs
        rw [stream, runs]
        simp only [ih fed none_]
        rfl
      next some_ =>
        obtain ⟨only, none_⟩ := List.append_eq_nil_iff.mp none_
        obtain ⟨p', then_, runs⟩ := fed.mark (n := n) (m := n) some_ only
        rw [stream, runs]
        simp only [ih then_ (text_false rest ▸ none_)]
        rfl

end CsvPump

end Apitap.Csv
