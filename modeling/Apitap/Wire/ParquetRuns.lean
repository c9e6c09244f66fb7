import Apitap.Wire.ParquetFraming

/-!
# Runs of the Parquet encoder

Chunks are read under any cut as they are at once, row groups and files are closed where the
caller says and where the bound does, and no row is lost or doubled on the way.
-/

namespace Apitap.Parquet

open Foundation
open Levels (shred)
open Copy (Row)
open SpanStrip.Early (plain)
open Mysource (Text)

variable {cfg : Config}

/-! ## Turns of the loop -/

/-- The cells of a tuple. -/
def Config.tuple (cfg : Config) (fs : List (Option Bytes)) :
    Except (Stop Error) (List (Option Value)) :=
  cfg.rowValues 0 cfg.delivered fs

/-- The bytes the encoder has not used. -/
def Encoder.pending (s : Encoder) : Bytes := s.buf.drop s.pos

/-- Where the bound stands between two rows. -/
def Bounded (cfg : Config) (s : Builders) : Prop :=
  s.groupBytes < cfg.rowGroup ∨ s.groupBytes = 0

variable {rows : List (List (Option Value))}

theorem Keeps.turned {s : Builders} (kept : Keeps cfg rows s) :
    ∃ t, (if cfg.rowGroup ≤ s.groupBytes then s.flushRowGroup cfg else .ok s) = .ok t ∧
      Keeps cfg rows t ∧ Bounded cfg t ∧ t.files = s.files := by
  by_cases full : cfg.rowGroup ≤ s.groupBytes
  · rw [if_pos full]
    obtain ⟨t, flushed, still, empty, files⟩ := kept.flush
    exact ⟨t, flushed, still, .inr empty.groupBytes, files⟩
  · rw [if_neg full]
    exact ⟨s, rfl, kept, .inl (Nat.not_le.mp full), rfl⟩

/-- What an encoder has made of the bytes `b`, coming from `s` and the rows before. -/
structure Absorbed (cfg : Config) (rows : List (List (Option Value))) (s : Encoder) (b : Bytes)
    (t : Encoder) (n : Nat) : Prop where
  reads : ∃ raws cells,
    (rowFormat cfg.delivered.length).parse b = .ok (raws, t.pending, t.finished) ∧
      raws.mapM cfg.tuple = .ok cells ∧ Keeps cfg (rows ++ cells) t.built ∧
        n = cells.length
  bounded : Bounded cfg t.built
  within : t.pos ≤ t.buf.length
  headed : t.headerDone = s.headerDone
  files : t.built.files = s.built.files

/-- Bytes that do not read as tuples with cells. -/
def Unreadable (cfg : Config) (b : Bytes) : Prop :=
  ∀ raws rest fin cells, (rowFormat cfg.delivered.length).parse b = .ok (raws, rest, fin) →
    raws.mapM cfg.tuple ≠ .ok cells

/-- What the loop comes to: all that the bytes stand for, or a failure where they stand for
nothing. -/
def TurnsTo (cfg : Config) (rows : List (List (Option Value))) (s : Encoder) (b : Bytes)
    (result : Except (Stop Error) (Encoder × Nat)) : Prop :=
  (∃ t n, result = .ok (t, n) ∧ Absorbed cfg rows s b t n) ∨
    (∃ e, result = .error e) ∧ Unreadable cfg b

section Turn

variable {s : Encoder} {fuel k : Nat} {fs : List (Option Bytes)} {e : Stop Error}

/-- A turn, by the tuple as the format reads it. -/
theorem turns_succ (count : s.built.cols.length = cfg.delivered.length)
    (unended : s.finished = false) :
    s.turns cfg (fuel + 1) =
      (((rowFormat cfg.delivered.length).item s.pending).bind (s.built.takes cfg)).bind fun
        | none => .ok (s, 0)
        | some (n, none) =>
            Encoder.turns cfg fuel { s with pos := s.pos + n, finished := true }
        | some (n, some built) =>
            (if cfg.rowGroup ≤ built.groupBytes then built.flushRowGroup cfg
            else .ok built).bind fun built =>
              (Encoder.turns cfg fuel { s with built, pos := s.pos + n }).map fun r =>
                (r.1, r.2 + 1) := by
  have undone : ¬ s.finished = true := by
    rw [unended]
    decide
  have tried : s.built.tryTuple cfg s.pending =
      ((rowFormat cfg.delivered.length).item s.pending).bind (s.built.takes cfg) := by
    rw [tryTuple_eq, count]
    rfl
  rw [Encoder.turns, if_neg undone, ← tried]
  rfl

theorem unreadable_of_error (read : (rowFormat cfg.delivered.length).item s.pending = .error e) :
    Unreadable cfg s.pending := by
  intro raws rest fin cells parsed
  rw [Format.parse_error read] at parsed
  cases parsed

/-- A tuple with a cell that cannot be taken. -/
theorem unreadable_of_row
    (read : (rowFormat cfg.delivered.length).item s.pending = .ok (some (k, some fs)))
    (refused : ∀ v, cfg.tuple fs ≠ .ok v) : Unreadable cfg s.pending := by
  intro raws rest fin cells parsed given
  rw [Format.parse_some read] at parsed
  obtain ⟨⟨raws', rest', fin'⟩, -, is⟩ := map_eq_ok.mp parsed
  obtain rfl : fs :: raws' = raws := (Prod.mk.inj is).1
  obtain ⟨v, -, value, -⟩ := mapM_cons_ok.mp given
  exact refused v value

theorem absorbed_none (kept : Keeps cfg rows s.built) (bounded : Bounded cfg s.built)
    (within : s.pos ≤ s.buf.length) (unended : s.finished = false)
    (read : (rowFormat cfg.delivered.length).item s.pending = .ok none) :
    Absorbed cfg rows s s.pending s 0 := by
  refine ⟨⟨[], [], ?_, rfl, ?_, rfl⟩, bounded, within, rfl, rfl⟩
  · rw [Format.parse_none read, unended]
  · rw [List.append_nil]
    exact kept

theorem absorbed_end (kept : Keeps cfg rows s.built) (bounded : Bounded cfg s.built)
    (read : (rowFormat cfg.delivered.length).item s.pending = .ok (some (k, none)))
    (there : s.pos + k ≤ s.buf.length) :
    Absorbed cfg rows s s.pending { s with pos := s.pos + k, finished := true } 0 := by
  refine ⟨⟨[], [], ?_, rfl, ?_, rfl⟩, bounded, there, rfl, rfl⟩
  · rw [Format.parse_end read, Encoder.pending, List.drop_drop]
    rfl
  · rw [List.append_nil]
    exact kept

/-- A tuple is taken, and the rest behind it. -/
theorem TurnsTo.cons {v : List (Option Value)} {next : Builders}
    {result : Except (Stop Error) (Encoder × Nat)}
    (read : (rowFormat cfg.delivered.length).item s.pending = .ok (some (k, some fs)))
    (value : cfg.tuple fs = .ok v) (files : next.files = s.built.files)
    (later : TurnsTo cfg (rows ++ [v]) { s with built := next, pos := s.pos + k }
      (s.buf.drop (s.pos + k)) result) :
    TurnsTo cfg rows s s.pending (result.map fun r => (r.1, r.2 + 1)) := by
  have parsed := Format.parse_some read
  rw [Encoder.pending, List.drop_drop] at parsed
  rcases later with ⟨t, n, rfl, absorbed⟩ | ⟨⟨e, rfl⟩, unreadable⟩
  · obtain ⟨raws, cells, reads, given, keeps, rfl⟩ := absorbed.reads
    refine .inl ⟨t, cells.length + 1, rfl, ⟨fs :: raws, v :: cells, ?_, ?_, ?_, rfl⟩,
      absorbed.bounded, absorbed.within, absorbed.headed, absorbed.files.trans files⟩
    · rw [Encoder.pending, parsed, reads]
      rfl
    · exact mapM_cons_ok.mpr ⟨v, cells, value, given, rfl⟩
    · rw [List.append_cons]
      exact keeps
  · refine .inr ⟨⟨e, rfl⟩, ?_⟩
    intro raws rest fin cells whole given
    rw [Encoder.pending, parsed] at whole
    obtain ⟨⟨raws', rest', fin'⟩, rest_reads, is⟩ := map_eq_ok.mp whole
    obtain rfl : fs :: raws' = raws := (Prod.mk.inj is).1
    obtain ⟨_, cells', -, values, -⟩ := mapM_cons_ok.mp given
    exact unreadable raws' rest' fin' cells' rest_reads values

end Turn

/-- The loop takes what the bytes stand for, and fails where they stand for nothing. -/
theorem turns_spec {fuel : Nat} {s : Encoder} (kept : Keeps cfg rows s.built)
    (bounded : Bounded cfg s.built) (within : s.pos ≤ s.buf.length) (unended : s.finished = false)
    (enough : s.pending.length < fuel) :
    TurnsTo cfg rows s s.pending (s.turns cfg fuel) := by
  induction fuel generalizing s rows with
  | zero => exact absurd enough (Nat.not_lt_zero _)
  | succ fuel ih =>
      have count := kept.count
      have left : s.pending.length = s.buf.length - s.pos := List.length_drop
      rw [turns_succ count unended]
      cases read : (rowFormat cfg.delivered.length).item s.pending with
      | error e => exact .inr ⟨⟨e, rfl⟩, unreadable_of_error read⟩
      | ok found =>
          cases found with
          | none => exact .inl ⟨s, 0, rfl, absorbed_none kept bounded within unended read⟩
          | some found =>
              obtain ⟨k, raw⟩ := found
              have took := (rowFormat cfg.delivered.length).item_le read
              have there : s.pos + k ≤ s.buf.length := by omega
              cases raw with
              | none =>
                  obtain ⟨fuel, rfl⟩ : ∃ g, fuel = g + 1 := ⟨fuel - 1, by omega⟩
                  exact .inl ⟨_, 0, rfl, absorbed_end kept bounded read there⟩
              | some fs =>
                  have raw : rawTuple cfg.delivered.length s.pending = .ok (some (k, some fs)) :=
                    read
                  have same : fs.length = s.built.cols.length := by
                    rw [length_rawTuple raw, count]
                  rw [Stop.ok_bind, Builders.takes]
                  cases row : cfg.fields 0 s.built.cols s.built.wm fs with
                  | error e =>
                      refine .inr ⟨⟨e, rfl⟩, unreadable_of_row read ?_⟩
                      intro v value
                      rw [Config.tuple, ← kept.delivered] at value
                      obtain ⟨r, fields⟩ := fields_ok s.built.wm kept.shaped same value
                      rw [row] at fields
                      cases fields
                  | ok r =>
                      obtain ⟨v, value, grown⟩ := kept.row same row
                      obtain ⟨next, turned, still, under, files⟩ := grown.turned
                      have fewer : (s.buf.drop (s.pos + k)).length < fuel := by
                        rw [List.length_drop]
                        omega
                      have later := ih (s := { s with built := next, pos := s.pos + k }) still under
                        there unended fewer
                      simp only [Except.map, Except.bind] at turned ⊢
                      rw [turned]
                      exact later.cons read value files

/-- Bytes that do not read as tuples with cells up to a trailer that ends them. -/
def Refused (cfg : Config) (b : Bytes) : Prop :=
  ∀ raws rest fin cells, (rowFormat cfg.delivered.length).parse b = .ok (raws, rest, fin) →
    raws.mapM cfg.tuple = .ok cells → fin = true ∧ rest ≠ []

theorem drain_spec {s : Encoder} (kept : Keeps cfg rows s.built) (bounded : Bounded cfg s.built)
    (within : s.pos ≤ s.buf.length) (unended : s.finished = false) :
    (∃ t n, s.drain cfg = .ok (t, n) ∧ Absorbed cfg rows s s.pending t n ∧
        (t.finished = true → t.pending = [])) ∨
      (∃ e, s.drain cfg = .error e) ∧ Refused cfg s.pending := by
  have enough : s.pending.length < s.buf.length + 1 := by
    rw [Encoder.pending, List.length_drop]
    omega
  rw [Encoder.drain]
  rcases turns_spec kept bounded within unended enough with
    ⟨t, n, ran, absorbed⟩ | ⟨⟨e, ran⟩, unreadable⟩
  · rw [ran, Stop.ok_bind]
    dsimp only
    by_cases over_it : t.finished = true ∧ t.pos < t.buf.length
    · rw [if_pos over_it]
      refine .inr ⟨⟨_, rfl⟩, ?_⟩
      intro raws rest fin cells parsed given
      obtain ⟨raws', cells', reads, -, -, -⟩ := absorbed.reads
      rw [reads] at parsed
      obtain ⟨rfl, rfl⟩ := Prod.mk.inj (Prod.mk.inj (Except.ok.inj parsed)).2
      refine ⟨over_it.1, ?_⟩
      intro none
      have length := congrArg List.length none
      rw [Encoder.pending, List.length_drop, List.length_nil] at length
      omega
    · rw [if_neg over_it]
      refine .inl ⟨t, n, rfl, absorbed, ?_⟩
      intro ended
      apply List.drop_of_length_le
      by_contra short
      exact over_it ⟨ended, Nat.not_le.mp short⟩
  · rw [ran]
    refine .inr ⟨⟨e, rfl⟩, ?_⟩
    intro raws rest fin cells parsed given
    exact absurd given (unreadable raws rest fin cells parsed)

/-! ## Chunks -/

/-- What all the input so far stands for: whether the header is through and the trailer seen,
the bytes that wait, the cells of the rows. -/
inductive ReadsAs (cfg : Config) (input : Bytes) :
    Bool → Bool → Bytes → List (List (Option Value)) → Prop where
  | waiting (header : Encoder.header input = .ok none) : ReadsAs cfg input false false input []
  | tuples {h : Nat} {raws rest fin cells} (header : Encoder.header input = .ok (some h))
      (parsed : (rowFormat cfg.delivered.length).parse (input.drop h) = .ok (raws, rest, fin))
      (given : raws.mapM cfg.tuple = .ok cells) (ends : fin = true → rest = []) :
      ReadsAs cfg input true fin rest cells

/-- An encoder that was fed the input. -/
structure Seen (cfg : Config) (input : Bytes) (cells : List (List (Option Value))) (s : Encoder) :
    Prop where
  reads : ReadsAs cfg input s.headerDone s.finished s.pending cells
  kept : Keeps cfg cells s.built
  bounded : Bounded cfg s.built
  within : s.pos ≤ s.buf.length

theorem seen_new (cfg : Config) : Seen cfg [] [] (.new cfg) :=
  ⟨.waiting rfl, keeps_new cfg, .inr rfl, Nat.le_refl 0⟩

/-- Compacting the frame keeps what waits. -/
theorem compact_spec {s : Encoder} (within : s.pos ≤ s.buf.length) :
    s.compact.pending = s.pending ∧ s.compact.pos ≤ s.compact.buf.length ∧
      s.compact.built = s.built ∧ s.compact.headerDone = s.headerDone ∧
        s.compact.finished = s.finished := by
  rw [Encoder.compact]
  by_cases consumed : 0 < s.pos ∧ s.pos = s.buf.length
  · have small : ¬ 2 ^ 20 < 0 := by decide
    rw [if_pos consumed]
    dsimp only
    rw [if_neg small]
    refine ⟨?_, Nat.le_refl 0, rfl, rfl, rfl⟩
    exact (List.drop_of_length_le consumed.2.ge).symm
  · rw [if_neg consumed]
    by_cases long : 2 ^ 20 < s.pos
    · rw [if_pos long]
      exact ⟨rfl, Nat.zero_le _, rfl, rfl, rfl⟩
    · rw [if_neg long]
      exact ⟨rfl, within, rfl, rfl, rfl⟩

/-- What one more chunk comes to. -/
def Fed (cfg : Config) (input : Bytes) (cells : List (List (Option Value)))
    (files : List (List (List Batch))) (result : Except (Stop Error) (Encoder × Nat)) : Prop :=
  (∃ t n more, result = .ok (t, n) ∧ Seen cfg input (cells ++ more) t ∧ n = more.length ∧
      t.built.files = files) ∨
    (∃ e, result = .error e) ∧ ∀ headed fin rest all, ¬ ReadsAs cfg input headed fin rest all

/-- Tuples behind those read already. -/
theorem fed_drain {s : Encoder} {input : Bytes} {h : Nat} {before : List (List (Option Value))}
    (raws : List (List (Option Bytes)))
    (header : Encoder.header input = .ok (some h)) (kept : Keeps cfg before s.built)
    (bounded : Bounded cfg s.built) (within : s.pos ≤ s.buf.length) (unended : s.finished = false)
    (headed : s.headerDone = true)
    (parsed : (rowFormat cfg.delivered.length).parse (input.drop h) =
      ((rowFormat cfg.delivered.length).parse s.pending).map fun r => (raws ++ r.1, r.2))
    (given : raws.mapM cfg.tuple = .ok before) :
    Fed cfg input before s.built.files (s.drain cfg) := by
  rcases drain_spec kept bounded within unended with ⟨t, n, ran, absorbed, ends⟩ | ⟨fails, refused⟩
  · obtain ⟨later, cells, reads, values, keeps, rfl⟩ := absorbed.reads
    refine .inl ⟨t, cells.length, cells, ran, ⟨?_, keeps, absorbed.bounded, absorbed.within⟩, rfl,
      absorbed.files⟩
    rw [absorbed.headed, headed]
    have whole : (rowFormat cfg.delivered.length).parse (input.drop h) =
        .ok (raws ++ later, t.pending, t.finished) := by
      rw [parsed, reads]
      rfl
    have all : (raws ++ later).mapM cfg.tuple = .ok (before ++ cells) := by
      rw [mapM_append, given, Stop.ok_bind, values]
      rfl
    exact .tuples header whole all ends
  · refine .inr ⟨fails, ?_⟩
    rintro _ fin rest all (waits | ⟨header', parsed', given', ends⟩)
    · rw [header] at waits
      cases waits
    · obtain rfl : _ = h := Option.some.inj (Except.ok.inj (header'.symm.trans header))
      rw [parsed] at parsed'
      obtain ⟨⟨later, rest, fin⟩, reads, is⟩ := map_eq_ok.mp parsed'
      cases is
      rw [mapM_append, given, Stop.ok_bind] at given'
      obtain ⟨cells, values, -⟩ := map_eq_ok.mp given'
      obtain ⟨ended, some⟩ := refused later rest fin cells reads values
      exact some (ends ended)

/-- The encoder a chunk is put into: its frame compacted, the chunk behind what waits. -/
structure Holding (cfg : Config) (s : Encoder) (pending : Bytes) (headed ended : Bool)
    (cells : List (List (Option Value))) : Prop where
  pending : s.pending = pending
  headed : s.headerDone = headed
  ended : s.finished = ended
  kept : Keeps cfg cells s.built
  bounded : Bounded cfg s.built
  within : s.pos ≤ s.buf.length

section Push

variable {s : Encoder} {input x : Bytes} {cells : List (List (Option Value))}

theorem Seen.holding (seen : Seen cfg input cells s) (x : Bytes) :
    Holding cfg { s.compact with buf := s.compact.buf ++ x } (s.pending ++ x) s.headerDone
      s.finished cells := by
  obtain ⟨same, compacted, built, headerDone, finished⟩ := compact_spec seen.within
  refine ⟨?_, headerDone, finished, ?_, ?_, ?_⟩
  · rw [← same]
    exact List.drop_append_of_le_length compacted
  · exact built.symm ▸ seen.kept
  · exact built.symm ▸ seen.bounded
  · show s.compact.pos ≤ (s.compact.buf ++ x).length
    rw [List.length_append]
    omega

/-- Before the header is through. -/
theorem Holding.header (holding : Holding cfg s (input ++ x) false false []) :
    Fed cfg (input ++ x) [] s.built.files ((Encoder.header s.pending).bind fun
      | none => .ok (s, 0)
      | some h => Encoder.drain cfg { s with headerDone := true, pos := s.pos + h }) := by
  rw [holding.pending]
  cases read : Encoder.header (input ++ x) with
  | error e =>
      refine .inr ⟨⟨e, rfl⟩, ?_⟩
      rintro _ fin rest all (waits | ⟨header, -, -, -⟩)
      · rw [read] at waits
        cases waits
      · rw [read] at header
        cases header
  | ok found =>
      cases found with
      | none =>
          refine .inl ⟨s, 0, [], rfl, ⟨?_, holding.kept, holding.bounded, holding.within⟩, rfl,
            rfl⟩
          rw [holding.pending, holding.headed, holding.ended]
          exact .waiting read
      | some h =>
          have le := (rowFormat cfg.delivered.length).header_le read
          have length := congrArg List.length holding.pending
          rw [Encoder.pending, List.length_drop] at length
          have within := holding.within
          have there : s.pos + h ≤ s.buf.length := by omega
          refine fed_drain [] read holding.kept holding.bounded there holding.ended rfl ?_ rfl
          rw [Encoder.pending, ← List.drop_drop, ← Encoder.pending, holding.pending]
          cases (rowFormat cfg.delivered.length).parse ((input ++ x).drop h) <;> rfl

/-- Behind the trailer no byte may follow. -/
theorem Holding.ended_drain {h : Nat} {raws : List (List (Option Bytes))}
    (holding : Holding cfg s x true true cells)
    (header : Encoder.header (input ++ x) = .ok (some h))
    (parsed : (rowFormat cfg.delivered.length).parse ((input ++ x).drop h) = .ok (raws, x, true))
    (given : raws.mapM cfg.tuple = .ok cells) :
    Fed cfg (input ++ x) cells s.built.files (s.drain cfg) := by
  have length := congrArg List.length holding.pending
  rw [Encoder.pending, List.length_drop] at length
  rw [Encoder.drain, Encoder.turns, if_pos holding.ended, Stop.ok_bind]
  dsimp only
  by_cases more : x = []
  · subst more
    rw [List.length_nil] at length
    have none : ¬ (s.finished = true ∧ s.pos < s.buf.length) := by
      rintro ⟨-, short⟩
      omega
    rw [if_neg none]
    refine .inl ⟨s, 0, [], rfl, ⟨?_, ?_, holding.bounded, holding.within⟩, rfl, rfl⟩
    · rw [holding.pending, holding.headed, holding.ended, List.append_nil cells]
      exact .tuples header parsed given fun _ => rfl
    · rw [List.append_nil]
      exact holding.kept
  · have positive := List.length_pos_of_ne_nil more
    have past : s.finished = true ∧ s.pos < s.buf.length := ⟨holding.ended, by omega⟩
    rw [if_pos past]
    refine .inr ⟨⟨_, rfl⟩, ?_⟩
    rintro _ fin rest all (waits | ⟨header', parsed', -, ends⟩)
    · rw [header] at waits
      cases waits
    · obtain rfl : h = _ := Option.some.inj (Except.ok.inj (header.symm.trans header'))
      rw [parsed] at parsed'
      cases parsed'
      exact more (ends rfl)

end Push

/-- A chunk goes to what the input with it stands for, and fails where that is nothing. -/
theorem Seen.push {s : Encoder} {input : Bytes} {cells : List (List (Option Value))}
    (seen : Seen cfg input cells s) (x : Bytes) :
    Fed cfg (input ++ x) cells s.built.files (s.push cfg x) := by
  obtain ⟨-, -, built, headerDone, -⟩ := compact_spec seen.within
  have holding := seen.holding x
  have reads := seen.reads
  rw [← built, Encoder.push]
  dsimp only
  generalize s.pending = pending at reads holding
  generalize s.headerDone = headed at reads headerDone holding
  generalize s.finished = ended at reads holding
  cases reads with
  | waiting header =>
      have no : ¬ s.compact.headerDone = true := by
        rw [headerDone]
        decide
      rw [if_neg no]
      exact holding.header
  | @tuples h raws _ _ _ header parsed given ends =>
      have yes : s.compact.headerDone = true := headerDone
      rw [if_pos yes]
      have header' : Encoder.header (input ++ x) = .ok (some h) :=
        (rowFormat cfg.delivered.length).header_append x header
      have le := (rowFormat cfg.delivered.length).header_le header
      have parsed' := Format.parse_append (F := rowFormat cfg.delivered.length) (input.drop h) x
      rw [parsed, Stop.ok_bind, ← List.drop_append_of_le_length le] at parsed'
      cases ended with
      | false =>
          refine fed_drain raws header' holding.kept holding.bounded holding.within holding.ended
            holding.headed ?_ given
          rw [holding.pending]
          exact parsed'
      | true =>
          obtain rfl : pending = [] := ends rfl
          exact holding.ended_drain header' parsed' given

/-! ## Runs -/

/-- What a caller does with an encoder. -/
inductive Op where
  | push (chunk : Bytes)
  | flushRowGroup
  | finishFile

def Op.chunk : Op → Bytes
  | .push chunk => chunk
  | .flushRowGroup => []
  | .finishFile => []

/-- The bytes pushed, in order. -/
def inputOf (ops : List Op) : Bytes := ops.flatMap Op.chunk

/-- An encoder, the rows its pushes said, and what closing each file said. -/
structure Ran where
  encoder : Encoder
  rows : Nat
  keyRows : List (Option Nat)

def Encoder.run (cfg : Config) : Encoder → List Op → Except (Stop Error) Ran
  | s, [] => .ok ⟨s, 0, []⟩
  | s, .push chunk :: ops =>
      (s.push cfg chunk).bind fun p =>
        (run cfg p.1 ops).map fun r => { r with rows := p.2 + r.rows }
  | s, .flushRowGroup :: ops =>
      (s.built.flushRowGroup cfg).bind fun built => run cfg { s with built } ops
  | s, .finishFile :: ops =>
      (s.built.finishFile cfg).bind fun p =>
        (run cfg { s with built := p.1 } ops).map fun r =>
          { r with keyRows := p.2 :: r.keyRows }

/-- The rows of a file's row groups, as a key companion reports them. -/
def Config.report (cfg : Config) (file : List (List Batch)) : Option Nat :=
  cfg.keyCol.map fun _ => (file.map rowsIn).sum

/-- What stands for something does so up to any point. -/
theorem readsAs_front {x y : Bytes} {headed fin : Bool} {rest : Bytes}
    {cells : List (List (Option Value))} (reads : ReadsAs cfg (x ++ y) headed fin rest cells) :
    ∃ headed fin rest cells, ReadsAs cfg x headed fin rest cells := by
  cases read : Encoder.header x with
  | error e =>
      have longer : Encoder.header (x ++ y) = .error e := (rowFormat 0).header_error y read
      rcases reads with waits | ⟨header, -, -, -⟩
      · rw [longer] at waits
        cases waits
      · rw [longer] at header
        cases header
  | ok found =>
      cases found with
      | none => exact ⟨_, _, _, _, .waiting read⟩
      | some h =>
          have longer : Encoder.header (x ++ y) = .ok (some h) :=
            (rowFormat 0).header_append y read
          rcases reads with waits | ⟨header, parsed, given, ends⟩
          · rw [longer] at waits
            cases waits
          · obtain rfl : h = _ := Option.some.inj (Except.ok.inj (longer.symm.trans header))
            rw [List.drop_append_of_le_length ((rowFormat 0).header_le read),
              Format.parse_append] at parsed
            obtain ⟨⟨raws, left, ended⟩, parsed', more⟩ := bind_eq_ok.mp parsed
            cases ended with
            | true =>
                cases more
                obtain rfl : left = [] := (List.append_eq_nil_iff.mp (ends rfl)).1
                exact ⟨_, _, _, _, .tuples read parsed' given fun _ => rfl⟩
            | false =>
                obtain ⟨⟨later, rest', fin'⟩, -, is⟩ := map_eq_ok.mp more
                cases is
                rw [mapM_append] at given
                obtain ⟨before, given', -⟩ := bind_eq_ok.mp given
                exact ⟨_, _, _, _, .tuples read parsed' given' fun no => by cases no⟩

/-- What a run comes to. -/
def Comes (cfg : Config) (input : Bytes) (cells : List (List (Option Value)))
    (files : List (List (List Batch))) (result : Except (Stop Error) Ran) : Prop :=
  (∃ r more closed, result = .ok r ∧ Seen cfg input (cells ++ more) r.encoder ∧
      r.rows = more.length ∧ r.encoder.built.files = files ++ closed ∧
        r.keyRows = closed.map cfg.report) ∨
    (∃ e, result = .error e) ∧ ∀ headed fin rest all, ¬ ReadsAs cfg input headed fin rest all

/-- A run goes to what its input stands for, and fails where that is nothing. -/
theorem Seen.run {s : Encoder} {input : Bytes} {cells : List (List (Option Value))}
    (seen : Seen cfg input cells s) (ops : List Op) :
    Comes cfg (input ++ inputOf ops) cells s.built.files (s.run cfg ops) := by
  induction ops generalizing s input cells with
  | nil =>
      refine .inl ⟨⟨s, 0, []⟩, [], [], rfl, ?_, rfl, (List.append_nil _).symm, rfl⟩
      rw [inputOf, List.flatMap_nil, List.append_nil, List.append_nil]
      exact seen
  | cons op ops ih =>
      cases op with
      | push chunk =>
          rw [Encoder.run, inputOf, List.flatMap_cons, ← List.append_assoc]
          rcases seen.push chunk with ⟨t, n, more, ran, seen', rfl, files⟩ | ⟨⟨e, fails⟩, none⟩
          · rw [ran, Stop.ok_bind]
            dsimp only
            rcases ih seen' with
              ⟨r, later, closed, ran', seen'', rows, files', reports⟩ | ⟨⟨e, fails⟩, none⟩
            · refine .inl ⟨{ r with rows := more.length + r.rows }, more ++ later, closed, ?_, ?_,
                ?_, ?_, reports⟩
              · rw [ran']
                rfl
              · rw [← List.append_assoc]
                exact seen''
              · rw [List.length_append, ← rows]
              · rw [← files]
                exact files'
            · refine .inr ⟨⟨e, ?_⟩, none⟩
              rw [fails]
              rfl
          · refine .inr ⟨⟨e, ?_⟩, ?_⟩
            · rw [fails]
              rfl
            · intro headed fin rest all reads
              obtain ⟨headed', fin', rest', all', reads'⟩ := readsAs_front reads
              exact none headed' fin' rest' all' reads'
      | flushRowGroup =>
          obtain ⟨t, flushed, kept, empty, files⟩ := seen.kept.flush
          have seen' : Seen cfg input cells { s with built := t } :=
            ⟨seen.reads, kept, .inr empty.groupBytes, seen.within⟩
          have later := ih seen'
          rw [Encoder.run, flushed, Stop.ok_bind, ← files]
          exact later
      | finishFile =>
          obtain ⟨t, file, finished, kept, empty, -, files⟩ := seen.kept.finish
          have seen' : Seen cfg input cells { s with built := t } :=
            ⟨seen.reads, kept, .inr empty.groupBytes, seen.within⟩
          rw [Encoder.run, finished, Stop.ok_bind]
          dsimp only
          rcases ih seen' with
            ⟨r, later, closed, ran', seen'', rows, files', reports⟩ | ⟨⟨e, fails⟩, none⟩
          · refine .inl ⟨_, later, file :: closed, congrArg (Except.map _) ran', seen'', rows,
              ?_, ?_⟩
            · show r.encoder.built.files = _
              rw [files']
              show t.files ++ closed = _
              rw [files, List.append_assoc]
              rfl
            · exact congrArg (cfg.report file :: ·) reports
          · refine .inr ⟨⟨e, ?_⟩, none⟩
            rw [fails]
            rfl

/-! ## Streams -/

/-- The cells of a row, where it has as many fields as there are columns. -/
def Config.cells (cfg : Config) (r : Row) : Except (Stop Error) (List (Option Value)) :=
  (tupleFields cfg.delivered.length r).bind cfg.tuple

/-- A stream, and bytes behind it, stand for its rows where those have cells and there are no
such bytes. -/
theorem stream_reads {h : Copy.Header} {rows : List Row} {x rest : Bytes} {headed fin : Bool}
    {cells : List (List (Option Value))}
    (reads : ReadsAs cfg (Copy.stream h rows ++ x) headed fin rest cells) :
    x = [] ∧ rows.mapM cfg.cells = .ok cells := by
  have header : Encoder.header (Copy.stream h rows ++ x) = .ok (some h.bytes.length) := by
    rw [Copy.stream, List.append_assoc]
    exact (rowFormat 0).header_append _ (header_taken 0 h)
  rcases reads with waits | ⟨header', parsed, given, ends⟩
  · rw [header] at waits
    cases waits
  · obtain rfl : h.bytes.length = _ := Option.some.inj (Except.ok.inj (header.symm.trans header'))
    rw [Copy.stream, List.append_assoc, List.drop_left, Format.parse_append, Copy.tuples,
      Format.parse_written (rowFormat_writes cfg.delivered.length)] at parsed
    obtain ⟨⟨raws, left, ended⟩, written, more⟩ := bind_eq_ok.mp parsed
    obtain ⟨raws', are, is⟩ := map_eq_ok.mp written
    cases is
    cases more
    exact ⟨ends rfl, mapM_bind.mpr ⟨_, are, given⟩⟩

theorem reads_stream (h : Copy.Header) {rows : List Row} {cells : List (List (Option Value))}
    (given : rows.mapM cfg.cells = .ok cells) :
    ReadsAs cfg (Copy.stream h rows) true true [] cells := by
  obtain ⟨raws, are, values⟩ := mapM_bind.mp given
  have header : Encoder.header (Copy.stream h rows) = .ok (some h.bytes.length) :=
    (rowFormat 0).header_append _ (header_taken 0 h)
  refine .tuples header ?_ values fun _ => rfl
  rw [Copy.stream, List.drop_left, Copy.tuples,
    Format.parse_written (rowFormat_writes cfg.delivered.length), are]
  rfl

/-- A decoded field is a value. -/
theorem decoded_some {d : Delivered} {f : Bytes} {v : Option Value} (is : decoded d f = .ok v) :
    v.isSome = true := by
  obtain ⟨r, pushed, rfl⟩ := map_eq_ok.mp is
  obtain ⟨x, values⟩ := (ColBuf.pushPg_adds pushed).value
  rw [values, List.getLast?_append]
  rfl

theorem cellValue_isSome {i : Nat} {d : Delivered} {f : Option Bytes} {v : Option Value}
    (is : cfg.cellValue i d f = .ok v) : v.isSome = f.isSome := by
  cases f with
  | none =>
      rw [Config.cellValue] at is
      split at is
      · cases is
      · split at is
        · cases is
        · cases is
          rfl
  | some f =>
      obtain ⟨x, value, marked⟩ := bind_eq_ok.mp is
      obtain ⟨w, -, rfl⟩ := map_eq_ok.mp marked
      exact decoded_some value

/-- A row's cells are there exactly where its fields are not NULL. -/
theorem rowValues_isSome {i : Nat} {ds : List Delivered} {fs : List (Option Bytes)}
    {cells : List (Option Value)} (same : fs.length = ds.length)
    (values : cfg.rowValues i ds fs = .ok cells) :
    cells.map Option.isSome = fs.map Option.isSome := by
  induction ds generalizing i fs cells with
  | nil =>
      obtain rfl : fs = [] := List.length_eq_zero_iff.mp same
      cases values
      rfl
  | cons d ds ih =>
      cases fs with
      | nil => cases same
      | cons f fs =>
          obtain ⟨v, value, later⟩ := bind_eq_ok.mp values
          obtain ⟨more, rest, rfl⟩ := map_eq_ok.mp later
          rw [List.map_cons, List.map_cons, cellValue_isSome value, ih (Nat.succ.inj same) rest]

/-- Every field of a row with cells has one. -/
theorem rowValues_field {i j : Nat} {ds : List Delivered} {fs : List (Option Bytes)}
    {cells : List (Option Value)} {f : Option Bytes} (same : fs.length = ds.length)
    (values : cfg.rowValues i ds fs = .ok cells) (field_at : fs[j]? = some f) :
    ∃ d v, ds[j]? = some d ∧ cells[j]? = some v ∧ cfg.cellValue (i + j) d f = .ok v := by
  induction ds generalizing i j fs cells with
  | nil =>
      obtain rfl : fs = [] := List.length_eq_zero_iff.mp same
      cases field_at
  | cons d ds ih =>
      cases fs with
      | nil => cases same
      | cons g fs =>
          obtain ⟨v, value, later⟩ := bind_eq_ok.mp values
          obtain ⟨more, rest, rfl⟩ := map_eq_ok.mp later
          cases j with
          | zero =>
              obtain rfl : g = f := Option.some.inj field_at
              exact ⟨d, v, rfl, rfl, value⟩
          | succ j =>
              have found := ih (Nat.succ.inj same) rest field_at
              rw [Nat.add_right_comm] at found
              exact found

theorem tuple_of_cells {r : Row} {cells : List (Option Value)} (given : cfg.cells r = .ok cells) :
    r.fields.length = cfg.delivered.length ∧ cfg.tuple r.fields = .ok cells := by
  obtain ⟨fs, fields, tuple⟩ := bind_eq_ok.mp given
  rw [tupleFields] at fields
  split at fields
  · cases fields
  · rename_i same
    cases fields
    exact ⟨Int.ofNat.inj (not_not.mp same), tuple⟩

theorem values_isSome {rows : List Row} {cells : List (List (Option Value))}
    (given : rows.mapM cfg.cells = .ok cells) :
    (cells.map fun r => r.map Option.isSome) = rows.map fun r => r.fields.map Option.isSome := by
  induction rows generalizing cells with
  | nil =>
      cases given
      rfl
  | cons r rows ih =>
      obtain ⟨first, more, one, rest, rfl⟩ := mapM_cons_ok.mp given
      obtain ⟨same, tuple⟩ := tuple_of_cells one
      rw [List.map_cons, List.map_cons, rowValues_isSome same tuple, ih rest]

theorem cells_of_mem {rows : List Row} {cells : List (List (Option Value))} {r : Row}
    (given : rows.mapM cfg.cells = .ok cells) (r_mem : r ∈ rows) :
    ∃ row, cfg.cells r = .ok row := by
  induction rows generalizing cells with
  | nil => cases r_mem
  | cons a rows ih =>
      obtain ⟨first, more, one, rest, rfl⟩ := mapM_cons_ok.mp given
      rcases List.mem_cons.mp r_mem with rfl | r_mem
      · exact ⟨first, one⟩
      · exact ih rest r_mem

/-! ## No row is lost -/

theorem run_append (s : Encoder) (ops more : List Op) :
    s.run cfg (ops ++ more) = (s.run cfg ops).bind fun first =>
      (first.encoder.run cfg more).map fun r =>
        ⟨r.encoder, first.rows + r.rows, first.keyRows ++ r.keyRows⟩ := by
  induction ops generalizing s with
  | nil =>
      show s.run cfg more = (s.run cfg more).map _
      cases s.run cfg more with
      | error e => rfl
      | ok r =>
          rw [Except.map, Nat.zero_add]
          rfl
  | cons op ops ih =>
      cases op with
      | push chunk =>
          rw [List.cons_append, Encoder.run, Encoder.run]
          cases s.push cfg chunk with
          | error e => rfl
          | ok p =>
              rw [Stop.ok_bind, Stop.ok_bind, ih]
              cases p.1.run cfg ops with
              | error e => rfl
              | ok first =>
                  simp only [Except.bind, Except.map]
                  cases first.encoder.run cfg more with
                  | error e => rfl
                  | ok r => simp only [Nat.add_assoc]
      | flushRowGroup =>
          rw [List.cons_append, Encoder.run, Encoder.run]
          cases s.built.flushRowGroup cfg with
          | error e => rfl
          | ok built => exact ih _
      | finishFile =>
          rw [List.cons_append, Encoder.run, Encoder.run]
          cases s.built.finishFile cfg with
          | error e => rfl
          | ok p =>
              rw [Stop.ok_bind, Stop.ok_bind, ih]
              cases Encoder.run cfg { s with built := p.1 } ops with
              | error e => rfl
              | ok first =>
                  simp only [Except.bind, Except.map]
                  cases first.encoder.run cfg more with
                  | error e => rfl
                  | ok r => rfl

/-- The builders before and behind a tuple that the loop takes, the bound not yet looked at. -/
inductive Passes (cfg : Config) : Encoder → Builders → Builders → Prop where
  | now {s : Encoder} {n : Nat} {built : Builders} (unended : s.finished = false)
      (took : s.built.tryTuple cfg s.pending = .ok (some (n, some built))) :
      Passes cfg s s.built built
  | later {s : Encoder} {n : Nat} {built next before after : Builders}
      (unended : s.finished = false)
      (took : s.built.tryTuple cfg s.pending = .ok (some (n, some built)))
      (turned : (if cfg.rowGroup ≤ built.groupBytes then built.flushRowGroup cfg
        else .ok built) = .ok next)
      (passes : Passes cfg { s with built := next, pos := s.pos + n } before after) :
      Passes cfg s before after

/-- A tuple taken is a row more. -/
theorem Keeps.tryTuple {rows : List (List (Option Value))} {s t : Builders} {b : Bytes} {n : Nat}
    (kept : Keeps cfg rows s) (took : s.tryTuple cfg b = .ok (some (n, some t))) :
    ∃ cells, Keeps cfg (rows ++ [cells]) t := by
  rw [tryTuple_eq] at took
  obtain ⟨found, read, takes⟩ := bind_eq_ok.mp took
  rcases found with _ | ⟨k, _ | fs⟩
  · cases takes
  · cases takes
  · obtain ⟨r, fields, is⟩ := map_eq_ok.mp takes
    cases is
    obtain ⟨cells, -, grown⟩ := kept.row (length_rawTuple read) fields
    exact ⟨cells, grown⟩

/-- The bytes the builders are said to hold. -/
def Sized (s : Builders) : Prop := s.groupBytes = (s.cols.map Column.size).sum

theorem Passes.sized {s : Encoder} {before after : Builders} (passes : Passes cfg s before after)
    {rows : List (List (Option Value))} (kept : Keeps cfg rows s.built)
    (bounded : Bounded cfg s.built) : Sized before ∧ Bounded cfg before ∧ Sized after := by
  induction passes generalizing rows with
  | now unended took =>
      obtain ⟨cells, grown⟩ := kept.tryTuple took
      exact ⟨kept.sized, bounded, grown.sized⟩
  | later unended took turned passes ih =>
      obtain ⟨cells, grown⟩ := kept.tryTuple took
      obtain ⟨next, turned', still, under, -⟩ := grown.turned
      rw [turned] at turned'
      obtain rfl := Except.ok.inj turned'
      exact ih still under

/-- What a run over a whole stream leaves: each column the cells of all rows in order, with a
level 0 exactly for NULL, and the key file beside the data file. -/
structure Delivers (cfg : Config) (rows : List Row) (r : Ran) : Prop where
  cells : ∃ cells, rows.mapM cfg.cells = .ok cells ∧ Keeps cfg cells r.encoder.built ∧
    (cells.map fun row => row.map Option.isSome) = rows.map fun row => row.fields.map Option.isSome
  rows : r.rows = rows.length
  keyRows : r.keyRows = r.encoder.built.files.map cfg.report

/-- The encoder over all streams, cuts and placements of flushes and closed files. -/
structure LosesNoRow (cfg : Config) : Prop where
  /-- Where all rows have cells the run succeeds. -/
  succeeds : ∀ h rows ops, inputOf ops = Copy.stream h rows →
    ∀ cells, rows.mapM cfg.cells = .ok cells → ∃ r, (Encoder.new cfg).run cfg ops = .ok r
  /-- A run that succeeds delivers all rows. -/
  delivers : ∀ h rows ops, inputOf ops = Copy.stream h rows →
    ∀ r, (Encoder.new cfg).run cfg ops = .ok r → Delivers cfg rows r
  /-- Behind a last flush or closed file the writers have all of them. -/
  handed : ∀ h rows ops last, (last = .flushRowGroup ∨ last = .finishFile) →
    inputOf ops = Copy.stream h rows → ∀ r, (Encoder.new cfg).run cfg (ops ++ [last]) = .ok r →
      ∃ cells, rows.mapM cfg.cells = .ok cells ∧ ∀ i < cfg.delivered.length,
        columnOf i r.encoder.built.written = shred (cells.map fun row => row.getD i none)
  /-- At any moment of any run the builders' bytes are counted, and a row taken was the first
  to bring them to the bound. -/
  sized : ∀ ops r, (Encoder.new cfg).run cfg ops = .ok r →
    Sized r.encoder.built ∧ Bounded cfg r.encoder.built ∧
      ∀ s, s.built = r.encoder.built → ∀ before after, Passes cfg s before after →
        Sized before ∧ Bounded cfg before ∧ Sized after
  /-- NULL in the key or a required column. -/
  nulls : ∀ h rows ops, inputOf ops = Copy.stream h rows → ∀ row ∈ rows, ∀ i,
    row.fields[i]? = some none → (cfg.keyCol = some i ∨ cfg.required.getD i false = true) →
      ∃ e, (Encoder.new cfg).run cfg ops = .error e
  /-- Bytes behind the trailer. -/
  trailing : ∀ h rows x ops, x ≠ [] → inputOf ops = Copy.stream h rows ++ x →
    ∃ e, (Encoder.new cfg).run cfg ops = .error e

/-- Every run from a new encoder. -/
theorem run_new (cfg : Config) (ops : List Op) :
    Comes cfg (inputOf ops) [] [] ((Encoder.new cfg).run cfg ops) :=
  (seen_new cfg).run ops

theorem run_seen {ops : List Op} {r : Ran} (ran : (Encoder.new cfg).run cfg ops = .ok r) :
    ∃ cells, Seen cfg (inputOf ops) cells r.encoder ∧ r.rows = cells.length ∧
      r.keyRows = r.encoder.built.files.map cfg.report := by
  rcases run_new cfg ops with
    ⟨r', cells, closed, ran', seen, rows, files, reports⟩ | ⟨⟨e, fails⟩, -⟩
  · rw [ran] at ran'
    obtain rfl := Except.ok.inj ran'
    refine ⟨cells, seen, rows, ?_⟩
    rw [reports, files]
    rfl
  · rw [ran] at fails
    cases fails

/-- Where the input stands for nothing the run fails. -/
theorem run_fails {ops : List Op}
    (none : ∀ headed fin rest cells, ¬ ReadsAs cfg (inputOf ops) headed fin rest cells) :
    ∃ e, (Encoder.new cfg).run cfg ops = .error e := by
  cases ran : (Encoder.new cfg).run cfg ops with
  | error e => exact ⟨e, rfl⟩
  | ok r =>
      obtain ⟨cells, seen, -, -⟩ := run_seen ran
      exact absurd seen.reads (none _ _ _ _)

/-- A run over a whole stream has seen its rows. -/
theorem run_stream {h : Copy.Header} {rows : List Row} {ops : List Op} {r : Ran}
    (whole : inputOf ops = Copy.stream h rows) (ran : (Encoder.new cfg).run cfg ops = .ok r) :
    ∃ cells, rows.mapM cfg.cells = .ok cells ∧ Seen cfg (inputOf ops) cells r.encoder ∧
      r.rows = rows.length ∧ r.keyRows = r.encoder.built.files.map cfg.report := by
  obtain ⟨cells, seen, count, reports⟩ := run_seen ran
  have reads := seen.reads
  rw [whole, ← List.append_nil (Copy.stream h rows)] at reads
  obtain ⟨-, given⟩ := stream_reads reads
  exact ⟨cells, given, seen, count.trans (mapM_ok given).1, reports⟩

/-- For all columns, merge keys, cursors and bounds of a row group. -/
theorem encoder_loses_no_row (cfg : Config) : LosesNoRow cfg where
  succeeds h rows ops whole cells given := by
    rcases run_new cfg ops with ⟨r, _, _, ran, -⟩ | ⟨-, none⟩
    · exact ⟨r, ran⟩
    · rw [whole] at none
      exact absurd (reads_stream h given) (none _ _ _ _)
  delivers h rows ops whole r ran := by
    obtain ⟨cells, given, seen, count, reports⟩ := run_stream whole ran
    exact ⟨⟨cells, given, seen.kept, values_isSome given⟩, count, reports⟩
  handed h rows ops last closes whole r ran := by
    rw [run_append] at ran
    obtain ⟨first, streamed, more⟩ := bind_eq_ok.mp ran
    obtain ⟨final, closed, rfl⟩ := map_eq_ok.mp more
    obtain ⟨cells, given, seen, -, -⟩ := run_stream whole streamed
    have ends : Keeps cfg cells final.encoder.built ∧ Emptied final.encoder.built := by
      rcases closes with rfl | rfl
      · obtain ⟨t, flushed, kept, empty, -⟩ := seen.kept.flush
        rw [Encoder.run, flushed, Stop.ok_bind] at closed
        cases closed
        exact ⟨kept, empty⟩
      · obtain ⟨t, file, finished, kept, empty, -, -⟩ := seen.kept.finish
        rw [Encoder.run, finished, Stop.ok_bind] at closed
        cases closed
        exact ⟨kept, empty⟩
    refine ⟨cells, given, ?_⟩
    intro i i_lt
    have all := ends.1.kept i i_lt
    rw [columnOf_append, columnOf_single, ends.2.noRows.getD, Levels.join_nil] at all
    exact all
  sized ops r ran := by
    obtain ⟨cells, seen, -, -⟩ := run_seen ran
    refine ⟨seen.kept.sized, seen.bounded, ?_⟩
    intro s same before after passes
    have kept : Keeps cfg cells s.built := by
      rw [same]
      exact seen.kept
    apply passes.sized kept
    rw [same]
    exact seen.bounded
  nulls h rows ops whole row row_mem i is_null forbidden := by
    apply run_fails
    intro headed fin rest cells reads
    rw [whole, ← List.append_nil (Copy.stream h rows)] at reads
    obtain ⟨-, given⟩ := stream_reads reads
    obtain ⟨values, has⟩ := cells_of_mem given row_mem
    obtain ⟨same, tuple⟩ := tuple_of_cells has
    obtain ⟨d, v, -, -, value⟩ := rowValues_field same tuple is_null
    rw [Nat.zero_add, Config.cellValue] at value
    split at value
    · cases value
    · rename_i notKey
      rw [if_pos (forbidden.resolve_left notKey)] at value
      cases value
  trailing h rows x ops some whole := by
    apply run_fails
    intro headed fin rest cells reads
    rw [whole] at reads
    exact some (stream_reads reads).1

/-- A key and a nullable number. -/
def orderConfig : Config where
  names := ["id", "qty"]
  delivered := [.int 4 false, .int 8 false]
  cursor := some (0, true)
  rowGroup := 20
  keyCol := some 0
  required := [true, false]
  chrono := .standard fun _ => true
  key_ok := by decide

def orderRows : List Row :=
  [⟨[some [0, 0, 0, 1], none], by decide, by simp⟩,
    ⟨[some [0, 0, 0, 2], some [0, 0, 0, 0, 0, 0, 0, 7]], by decide, by simp⟩,
    ⟨[some [0, 0, 0, 3], none], by decide, by simp⟩]

/-- A chunk ends in a tuple, and a flush and a closed file come before the rest of it. -/
def orderOps : List Op :=
  [.push ((Copy.stream plain orderRows).take 40), .flushRowGroup, .finishFile,
    .push ((Copy.stream plain orderRows).drop 40)]

theorem encoder_loses_no_row_orders :
    ∃ r cells, (Encoder.new orderConfig).run orderConfig (orderOps ++ [.finishFile]) = .ok r ∧
      cells = [[some (.int 1), none], [some (.int 2), some (.int 7)], [some (.int 3), none]] ∧
      ∀ i < 2, columnOf i r.encoder.built.written =
        shred (cells.map fun row => row.getD i none) := by
  have whole : inputOf orderOps = Copy.stream plain orderRows := by
    simp [inputOf, orderOps, Op.chunk]
  have given : orderRows.mapM orderConfig.cells =
      .ok [[some (.int 1), none], [some (.int 2), some (.int 7)], [some (.int 3), none]] := by
    decide +kernel
  have loses := encoder_loses_no_row orderConfig
  obtain ⟨r, ran⟩ := loses.succeeds plain orderRows (orderOps ++ [.finishFile]) whole _ given
  obtain ⟨cells, given', columns⟩ :=
    loses.handed plain orderRows orderOps .finishFile (.inr rfl) whole r ran
  exact ⟨r, cells, ran, (Except.ok.inj (given'.symm.trans given)), columns⟩

end Apitap.Parquet
