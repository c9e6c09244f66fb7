import Apitap.Foundation.Framing
import Apitap.Wire.Pgoutput

/-!
# The carry buffer of a streaming transcoder

Chunks go through a buffer that holds a header or a tuple that has not come whole. A chunk is
fed to it in doubling slices until nothing is pending, and the rest is read in place; only
what is left over is carried. Both transcoders are this machine over their own format; it
reads every input as a plain reader of the format does.
-/

namespace Apitap

open Foundation

/-- The carry buffer, the part of it already read, and what has been seen. -/
structure Carry where
  buf : Bytes
  pos : Nat
  headerDone : Bool
  finished : Bool
  rows : Nat

namespace Carry

variable {ε : Type} (F : Format ε UInt8 Bytes)

def new : Carry := ⟨[], 0, false, false, 0⟩

/-- Tuples from `pos` on while there are whole ones: the position reached, how many, their
output, whether the trailer came. -/
def tuples (buf : Bytes) : Nat → Nat → Except ε (Nat × Nat × Bytes × Bool)
  | 0, pos => .ok (pos, 0, [], false)
  | fuel + 1, pos =>
      match F.item (buf.drop pos) with
      | .error e => .error e
      | .ok none => .ok (pos, 0, [], false)
      | .ok (some (n, none)) => .ok (pos + n, 0, [], true)
      | .ok (some (n, some out)) =>
          (tuples buf fuel (pos + n)).map fun (pos, rows, more, fin) =>
            (pos, rows + 1, out ++ more, fin)

/-- The tuples of the buffer, and the buffer compacted. -/
def drain (s : Carry) : Except ε (Carry × Bytes) :=
  if s.finished then .ok (s, [])
  else
    (tuples F s.buf (s.buf.length + 1) s.pos).map fun (pos, rows, out, fin) =>
      let s := { s with pos, rows := s.rows + rows, finished := fin }
      if fin then (s, out)
      else if pos = s.buf.length then ({ s with buf := [], pos := 0 }, out)
      else if 2 ^ 20 < pos then ({ s with buf := s.buf.drop pos, pos := 0 }, out)
      else (s, out)

/-- One slice appended to the buffer. -/
def slice (s : Carry) (x : Bytes) : Except ε (Carry × Bytes) :=
  let s := { s with buf := s.buf ++ x }
  if s.headerDone then s.drain F
  else
    match F.header (s.buf.drop s.pos) with
    | .error e => .error e
    | .ok none => .ok (s, [])
    | .ok (some n) => drain F { s with pos := s.pos + n, headerDone := true }

/-- Nothing pending: tuples straight from the input, the tail into the buffer. -/
def fast (s : Carry) (inp : Bytes) : Except ε (Carry × Bytes) :=
  if s.finished then .ok (s, [])
  else
    (tuples F inp (inp.length + 1) 0).map fun (off, rows, out, fin) =>
      ({ s with
          buf := if off < inp.length ∧ ¬ fin then s.buf ++ inp.drop off else s.buf
          rows := s.rows + rows
          finished := fin }, out)

/-- Slices of the input while a header or a tuple is pending. -/
def feed : Nat → Carry → Bytes → Nat → Except ε (Carry × Bytes)
  | 0, s, inp, _ => s.fast F inp
  | fuel + 1, s, inp, step =>
      if inp ≠ [] ∧ ¬ (s.headerDone ∧ s.buf = []) then
        (s.slice F (inp.take step)).bind fun (s, out) =>
          if s.finished then .ok (s, out)
          else (feed fuel s (inp.drop step) (min (step * 2) (2 ^ 20))).map fun (s, more) =>
            (s, out ++ more)
      else s.fast F inp

/-- Feed input; every slice takes a byte at least. -/
def push (s : Carry) (input : Bytes) : Except ε (Carry × Bytes) :=
  let s := if 0 < s.pos ∧ s.pos = s.buf.length then { s with buf := [], pos := 0 } else s
  feed F input.length s input (4 * 2 ^ 10)

/-- Chunk after chunk, with all that went out. -/
def pushes (s : Carry) : List Bytes → Except ε (Carry × Bytes)
  | [] => .ok (s, [])
  | c :: cs => (s.push F c).bind fun (s, out) =>
      (pushes s cs).map fun (s, more) => (s, out ++ more)

/-- What a run shows: the output, the row count, whether the trailer came. -/
def shown (ran : Except ε (Carry × Bytes)) : Except ε (Bytes × Nat × Bool) :=
  ran.map fun (s, out) => (out, s.rows, s.finished)

/-! ## The machine against a plain reader -/

/-- The reader's state a buffer stands for. -/
structure Stands (s : Carry) (r : Reader UInt8 Bytes) : Prop where
  headed : r.headed = s.headerDone
  finished : r.finished = s.finished
  rows : r.out.length = s.rows
  pos_le : s.pos ≤ s.buf.length
  ended : s.finished = true → s.headerDone = true
  pending : s.finished = false → r.pending = s.buf.drop s.pos

/-- A step from a state standing for `r` does what the reader does, and puts out what the
reader adds. -/
def Runs (r : Reader UInt8 Bytes) :
    Except ε (Carry × Bytes) → Except ε (Reader UInt8 Bytes) → Prop
  | .ok (s, out), .ok r' => Stands s r' ∧ r'.out.flatten = r.out.flatten ++ out
  | .error e, .error e' => e = e'
  | _, _ => False

variable {F} {s : Carry} {r : Reader UInt8 Bytes} {buf x inp : Bytes}

theorem stands_new : Stands new Reader.new :=
  ⟨rfl, rfl, rfl, Nat.le_refl _, fun ended => (nomatch ended), fun _ => rfl⟩

theorem tuples_error {fuel pos : Nat} {e : ε} (stops : F.items fuel (buf.drop pos) = .error e) :
    tuples F buf fuel pos = .error e := by
  induction fuel generalizing pos with
  | zero => cases stops
  | succ fuel ih =>
      rw [Format.items] at stops
      rw [tuples]
      cases read : F.item (buf.drop pos) with
      | error e' =>
          rw [read] at stops
          obtain rfl : e' = e := Except.error.inj stops
          rfl
      | ok found =>
          rcases found with _ | ⟨n, _ | out⟩
          · rw [read] at stops
            cases stops
          · rw [read] at stops
            cases stops
          · rw [read] at stops
            simp only [List.drop_drop] at stops ⊢
            cases later : F.items fuel (buf.drop (pos + n)) with
            | error e' =>
                rw [later] at stops
                obtain rfl : e' = e := Except.error.inj stops
                rw [ih later]
                rfl
            | ok got =>
                rw [later] at stops
                cases stops

theorem tuples_ok {fuel pos : Nat} (within : pos ≤ buf.length) {rs : List Bytes} {rest : Bytes}
    {fin : Bool} (reads : F.items fuel (buf.drop pos) = .ok (rs, rest, fin)) :
    ∃ p ≤ buf.length, tuples F buf fuel pos = .ok (p, rs.length, rs.flatten, fin) ∧
      rest = buf.drop p := by
  induction fuel generalizing pos rs with
  | zero =>
      cases reads
      exact ⟨pos, within, rfl, rfl⟩
  | succ fuel ih =>
      rw [Format.items] at reads
      cases read : F.item (buf.drop pos) with
      | error e =>
          rw [read] at reads
          cases reads
      | ok found =>
          rcases found with _ | ⟨n, _ | out⟩
          · rw [read] at reads
            cases reads
            exact ⟨pos, within, by rw [tuples, read]; rfl, rfl⟩
          · have took := (F.item_le read).2
            rw [List.length_drop] at took
            rw [read] at reads
            cases reads
            exact ⟨pos + n, by omega, by rw [tuples, read]; rfl, List.drop_drop⟩
          · have took := (F.item_le read).2
            rw [List.length_drop] at took
            rw [read] at reads
            simp only [List.drop_drop] at reads
            cases later : F.items fuel (buf.drop (pos + n)) with
            | error e =>
                rw [later] at reads
                cases reads
            | ok got =>
                obtain ⟨more, rest', fin'⟩ := got
                rw [later] at reads
                cases reads
                obtain ⟨p, le, ran, is⟩ := ih (by omega) later
                exact ⟨p, le, by rw [tuples, read]; simp only [ran]; rfl, is⟩

/-- Reading the buffer from `pos` on, in either state of the code's two loops. -/
theorem tuples_parse {fuel pos : Nat} (within : pos ≤ buf.length)
    (enough : buf.length < fuel) :
    (∃ e, F.parse (buf.drop pos) = .error e ∧ tuples F buf fuel pos = .error e) ∨
      ∃ rs fin, ∃ p ≤ buf.length, F.parse (buf.drop pos) = .ok (rs, buf.drop p, fin) ∧
        tuples F buf fuel pos = .ok (p, rs.length, rs.flatten, fin) := by
  have same : F.parse (buf.drop pos) = F.items fuel (buf.drop pos) :=
    Format.items_fuel (Nat.lt_succ_self _) (by rw [List.length_drop]; omega)
  rw [same]
  cases reads : F.items fuel (buf.drop pos) with
  | error e => exact .inl ⟨e, rfl, tuples_error reads⟩
  | ok got =>
      obtain ⟨rs, rest, fin⟩ := got
      obtain ⟨p, le, ran, rfl⟩ := tuples_ok within reads
      exact .inr ⟨rs, fin, p, le, rfl, ran⟩

theorem drain_runs (headed : s.headerDone = true) (open_ : s.finished = false)
    (rows : r.out.length = s.rows) (within : s.pos ≤ s.buf.length) :
    Runs r (s.drain F) (r.take F (s.buf.drop s.pos)) := by
  rw [drain, if_neg (by simp [open_]), Reader.take]
  rcases tuples_parse (F := F) within (Nat.lt_succ_self s.buf.length) with
    ⟨e, stops, ran⟩ | ⟨rs, fin, p, le, reads, ran⟩
  · rw [stops, ran]
    exact rfl
  · rw [reads, ran]
    have added : (r.out ++ rs).flatten = r.out.flatten ++ rs.flatten := List.flatten_append
    have count : (r.out ++ rs).length = s.rows + rs.length := by rw [List.length_append, rows]
    simp only [Except.map]
    cases fin with
    | true =>
        exact ⟨⟨headed.symm, rfl, count, le, fun _ => headed, fun no => (by cases no)⟩, added⟩
    | false =>
        simp only [Bool.false_eq_true, if_false]
        split
        case isTrue all =>
            refine ⟨⟨headed.symm, rfl, count, Nat.le_refl _, fun no => (by cases no),
              fun _ => ?_⟩, added⟩
            simp [all]
        case isFalse =>
            split
            · exact ⟨⟨headed.symm, rfl, count, Nat.zero_le _, fun no => (by cases no),
                fun _ => rfl⟩, added⟩
            · exact ⟨⟨headed.symm, rfl, count, le, fun no => (by cases no), fun _ => rfl⟩,
                added⟩

theorem slice_runs (stands : Stands s r) (x : Bytes) :
    Runs r (s.slice F x) (r.absorb F x) := by
  have room : s.pos ≤ (s.buf ++ x).length := by
    rw [List.length_append]
    exact Nat.le_add_right_of_le stands.pos_le
  by_cases done : s.finished = true
  · rw [slice, if_pos (stands.ended done), drain, if_pos done, Reader.absorb,
      if_pos (stands.finished.trans done)]
    refine ⟨⟨stands.headed, stands.finished, stands.rows, room, stands.ended,
      fun no => ?_⟩, ?_⟩
    · exact absurd done (by simp [show s.finished = false from no])
    · rw [List.append_nil]
  · have open_ : s.finished = false := Bool.eq_false_iff.mpr done
    have joined : r.pending ++ x = (s.buf ++ x).drop s.pos := by
      rw [stands.pending open_, List.drop_append_of_le_length stands.pos_le]
    rw [Reader.absorb, if_neg (by simp [stands.finished, open_]), joined]
    by_cases headed : s.headerDone = true
    · rw [slice, if_pos headed, if_pos (stands.headed.trans headed)]
      exact drain_runs (s := { s with buf := s.buf ++ x }) headed open_ stands.rows room
    · rw [slice, if_neg headed, if_neg (by simpa [stands.headed] using headed)]
      cases read : F.header ((s.buf ++ x).drop s.pos) with
      | error e => exact rfl
      | ok found =>
          cases found with
          | none =>
              refine ⟨⟨stands.headed, stands.finished, stands.rows, room, stands.ended,
                fun _ => rfl⟩, ?_⟩
              rw [List.append_nil]
          | some n =>
              have le := F.header_le read
              rw [List.length_drop] at le
              simp only [List.drop_drop]
              exact drain_runs
                (s := { s with buf := s.buf ++ x, pos := s.pos + n, headerDone := true })
                rfl open_ stands.rows (by simp only; omega)

theorem fast_runs (stands : Stands s r) (settled : Reader.Settled F r)
    (clear : inp = [] ∨ s.headerDone = true ∧ s.buf = []) :
    Runs r (s.fast F inp) (r.absorb F inp) := by
  by_cases done : s.finished = true
  · rw [fast, if_pos done, Reader.absorb, if_pos (stands.finished.trans done)]
    exact ⟨stands, by rw [List.append_nil]⟩
  · have open_ : s.finished = false := Bool.eq_false_iff.mpr done
    rw [fast, if_neg done]
    rcases clear with rfl | ⟨headed, empty⟩
    · rw [settled, tuples, List.drop_nil, F.item_nil]
      refine ⟨⟨stands.headed, stands.finished.trans open_, stands.rows, stands.pos_le,
        fun no => (by cases no), fun _ => ?_⟩, by rw [List.append_nil]⟩
      exact stands.pending open_
    · have start : s.pos = 0 := by
        have le := stands.pos_le
        rw [empty] at le
        exact Nat.le_zero.mp le
      have none : r.pending = [] := by rw [stands.pending open_, empty, List.drop_nil]
      rw [Reader.absorb, if_neg (by simp [stands.finished, open_]),
        if_pos (stands.headed.trans headed), none, List.nil_append, Reader.take]
      rcases tuples_parse (F := F) (Nat.zero_le inp.length) (Nat.lt_succ_self _) with
        ⟨e, stops, ran⟩ | ⟨rs, fin, p, le, reads, ran⟩
      · rw [List.drop_zero] at stops
        rw [stops, ran]
        exact rfl
      · rw [List.drop_zero] at reads
        rw [reads, ran]
        have count : (r.out ++ rs).length = s.rows + rs.length := by
          rw [List.length_append, stands.rows]
        refine ⟨⟨headed.symm, rfl, count, ?_, fun _ => headed, fun more => ?_⟩,
          List.flatten_append⟩
        · rw [start]
          exact Nat.zero_le _
        · obtain rfl : fin = false := more
          rw [start, empty, List.drop_zero]
          by_cases left : p < inp.length
          · simp [left]
          · simp [left, List.drop_of_length_le (Nat.not_lt.mp left)]

/-- What a later step does to a reader further on, seen from the earlier one. -/
theorem Runs.after {r' : Reader UInt8 Bytes} {out : Bytes}
    {a : Except ε (Carry × Bytes)} {b : Except ε (Reader UInt8 Bytes)}
    (later : Runs r' a b) (grown : r'.out.flatten = r.out.flatten ++ out) :
    Runs r (a.map fun (s, more) => (s, out ++ more)) b := by
  match a, b, later with
  | .ok (s, more), .ok r'', ⟨stands, added⟩ =>
      exact ⟨stands, by rw [added, grown, List.append_assoc]⟩
  | .error e, .error e', same => exact same

/-- One step and then another. -/
theorem Runs.bind {a : Except ε (Carry × Bytes)} {b : Except ε (Reader UInt8 Bytes)}
    {k : Carry × Bytes → Except ε (Carry × Bytes)}
    {l : Reader UInt8 Bytes → Except ε (Reader UInt8 Bytes)} (first : Runs r a b)
    (later : ∀ s out r', b = .ok r' → Stands s r' → r'.out.flatten = r.out.flatten ++ out →
      Runs r (k (s, out)) (l r')) :
    Runs r (a.bind k) (b.bind l) := by
  match a, b, first with
  | .ok (s, out), .ok r', ⟨stands, added⟩ => exact later s out r' rfl stands added
  | .error e, .error e', same => exact same

theorem feed_runs {fuel step : Nat} (stands : Stands s r) (settled : Reader.Settled F r)
    (enough : inp.length ≤ fuel) (positive : 0 < step) :
    Runs r (s.feed F fuel inp step) (r.absorb F inp) := by
  induction fuel generalizing s r inp step with
  | zero =>
      have none : inp = [] := List.length_eq_zero_iff.mp (Nat.le_zero.mp enough)
      exact fast_runs stands settled (.inl none)
  | succ fuel ih =>
      rw [feed]
      split
      case isTrue more =>
          have some := List.length_pos_of_ne_nil more.1
          rw [← List.take_append_drop step inp, ← Reader.absorb_append, List.take_append_drop]
          refine (slice_runs stands (inp.take step)).bind fun s' out r' took stands' added => ?_
          simp only
          split
          case isTrue done =>
              rw [Reader.absorb, if_pos (stands'.finished.trans done)]
              exact ⟨stands', added⟩
          case isFalse =>
              have rest : Runs r' (s'.feed F fuel (inp.drop step) (min (step * 2) (2 ^ 20)))
                  (r'.absorb F (inp.drop step)) :=
                ih stands' (.absorb took) (by rw [List.length_drop]; omega) (by omega)
              exact rest.after added
      case isFalse none =>
          refine fast_runs stands settled ?_
          by_cases empty : inp = []
          · exact .inl empty
          · exact .inr (not_not.mp fun pending => none ⟨empty, pending⟩)

theorem push_runs (stands : Stands s r) (settled : Reader.Settled F r) (input : Bytes) :
    Runs r (s.push F input) (r.absorb F input) := by
  rw [push]
  refine feed_runs ?_ settled (Nat.le_refl _) (by decide)
  split
  case isTrue all =>
      refine ⟨stands.headed, stands.finished, stands.rows, Nat.le_refl _, stands.ended,
        fun more => ?_⟩
      rw [stands.pending more, all.2, List.drop_length]
      rfl
  case isFalse => exact stands

theorem pushes_runs (stands : Stands s r) (settled : Reader.Settled F r) (cs : List Bytes) :
    Runs r (s.pushes F cs) (r.absorbAll F cs) := by
  induction cs generalizing s r with
  | nil => exact ⟨stands, by rw [List.append_nil]⟩
  | cons c cs ih =>
      refine (push_runs stands settled c).bind fun s' out r' took stands' added => ?_
      exact (ih stands' (.absorb took)).after added

/-- What a reader shows of its whole input. -/
def showsOf (read : Except ε (Reader UInt8 Bytes)) : Except ε (Bytes × Nat × Bool) :=
  read.map fun r => (r.out.flatten, r.out.length, r.finished)

/-- A run shows what a plain reader of the whole input shows. -/
theorem shown_pushes (F : Format ε UInt8 Bytes) (cs : List Bytes) :
    shown (new.pushes F cs) = showsOf (Reader.new.absorb F cs.flatten) := by
  have runs := pushes_runs (F := F) stands_new Reader.settled_new cs
  rw [Reader.absorbAll_eq Reader.settled_new] at runs
  match new.pushes F cs, Reader.new.absorb F cs.flatten, runs with
  | .ok (s, out), .ok r', ⟨stands, added⟩ =>
      have all : r'.out.flatten = out := by simpa [Reader.new] using added
      rw [shown, showsOf, Except.map, Except.map, all, stands.rows, stands.finished]
  | .error e, .error e', same =>
      obtain rfl : e = e' := same
      rfl

theorem shown_push (F : Format ε UInt8 Bytes) (input : Bytes) :
    shown (new.push F input) = showsOf (Reader.new.absorb F input) := by
  have one := shown_pushes F [input]
  rw [List.flatten_singleton, pushes] at one
  rw [← one]
  cases new.push F input with
  | error e => rfl
  | ok ran => simp only [pushes, Except.bind, Except.map, List.append_nil]

end Carry

end Apitap
