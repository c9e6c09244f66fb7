import Apitap.Wire.ArrowFramed

/-!
# The planes agree

A worker's payload comes to the same rows by both planes, whatever the messages, the reads of the
socket and the pieces are: those of the tuples of the spans, in their order, in batches that are
the columns of consecutive rows. Both refuse what is malformed or does not decode or ends in the
middle of a span, and but for the builder's limits nothing else.
-/

namespace Apitap.Arrow

open Foundation
open Walsender (Chunk Lossy Message Fits encode lengthAt maxFrame payload payload_cons
  header_encode length_encode headD_append lengthAt_append badLength)

variable {kinds : List ArrowKind} {rows : List (List CellVal)} {b b' : BatchBuilder}
  {batch : ArrowBatch} {e : Stop Error} {s s' : Loader} {x y z : Bytes} {lossy : Lossy}

/-! ## Batches that leave -/

/-- The batch of some rows. -/
def batchOf (kinds : List ArrowKind) (rows : List (List CellVal)) : ArrowBatch :=
  ⟨rows.length, kinds.zipIdx.map fun p => (colOf (column rows p.2) p.1).sealCol.1⟩

theorem Holds.batchOf (holds : Holds kinds b rows) (is : b.sealBatch = .ok (batch, b')) :
    batch = Arrow.batchOf kinds rows := by
  obtain ⟨-, -, rfl, -, -⟩ := sealBatch_ok is
  rw [Arrow.batchOf, holds.count]
  congr 1
  apply List.ext_getElem?
  intro c
  rw [List.getElem?_map, List.getElem?_map, List.getElem?_zipIdx]
  cases here : kinds[c]? with
  | none =>
      have past : b.cols.length ≤ c := holds.cols ▸ List.getElem?_eq_none_iff.mp here
      rw [List.getElem?_eq_none past]
      rfl
  | some kind =>
      rw [holds.col c kind here, Nat.zero_add]
      rfl

theorem sealBatch_frame (is : b.sealBatch = .ok (batch, b')) :
    b'.buf = b.buf ∧ b'.inSpan = b.inSpan ∧ b'.frLeft = b.frLeft := by
  obtain ⟨⟨⟩, -, is⟩ := bind_eq_ok.mp is
  obtain ⟨⟨⟩, -, is⟩ := map_eq_ok.mp is
  cases is
  exact ⟨rfl, rfl, rfl⟩

theorem sealBatch_error (wrong : b.sealBatch = .error e) : Limit e := by
  obtain wrong | ⟨⟨⟩, -, wrong⟩ := bind_eq_error.mp wrong
  · rw [BatchBuilder.checkOffsets] at wrong
    split at wrong <;> cases wrong
    exact .offsets
  · have wrong := map_eq_error.mp wrong
    rw [BatchBuilder.checkUtf8] at wrong
    split at wrong <;> cases wrong
    exact .text _

/-- A loader behind some of a stream: what has left it and what its builder holds are the rows of
the tuples there. -/
def Fed (kinds : List ArrowKind) (x : Bytes) (s : Loader) (y : Bytes) : Prop :=
  ∃ (ts : List (List (Option Bytes))) (parts : List (List (List CellVal)))
    (held : List (List CellVal)), (spans kinds.length).Reads false x ts s.builder.inSpan y ∧
    (∀ fs ∈ ts, Decodes kinds fs) ∧ s.out = parts.map (batchOf kinds) ∧
      (∀ part ∈ parts, part ≠ []) ∧ Holds kinds s.builder held ∧ parts.flatten ++
        held = ts.map (rowOf kinds)

theorem fed_new (batchBytes : Nat) : Fed kinds x (.new kinds batchBytes) x := by
  refine ⟨[], [], [], .done _ _, ?_, rfl, ?_, holds_new, rfl⟩
  · intro fs mem
    cases mem
  · intro part mem
    cases mem

theorem Fed.refuses (fed : Fed kinds x s y) (refuses : Refuses kinds s.builder.inSpan y e) :
    Refuses kinds false x e := by
  obtain ⟨ts, parts, held, reads, -⟩ := fed
  exact refuses.imp_right fun refused => refused.behind reads

/-- A builder that is further leaves a batch where one is ready. -/
theorem Fed.ship (fed : Fed kinds x s y) : ∃ held, Holds kinds s.builder held ∧
    ∀ {b : BatchBuilder} {z : Bytes} {us : List (List (Option Bytes))},
      Advances kinds held s.builder y us b z →
        (∀ e, s.ship b = .error e → Limit e) ∧
          ∀ s', s.ship b = .ok s' → Fed kinds x s' z ∧ s'.builder.buf = b.buf ∧
            s'.builder.inSpan = b.inSpan ∧ s'.builder.frLeft = b.frLeft := by
  obtain ⟨ts, parts, held, reads, decodes, out, full, holds, all⟩ := fed
  refine ⟨held, holds, ?_⟩
  intro b z us advances
  have all' : parts.flatten ++ (held ++ us.map (rowOf kinds)) = (ts ++ us).map (rowOf kinds) := by
    rw [← List.append_assoc, all, List.map_append]
  have decodes' := List.forall_mem_append.mpr ⟨decodes, advances.decodes⟩
  have reads' := reads.trans advances.reads
  rw [Loader.ship]
  constructor
  · intro e wrong
    have wrong := map_eq_error.mp wrong
    rw [BatchBuilder.takeReady] at wrong
    split at wrong
    · cases wrong
    · exact sealBatch_error (map_eq_error.mp wrong)
  · intro s' is
    obtain ⟨⟨batch, b₁⟩, taken, same⟩ := map_eq_ok.mp is
    cases same
    rw [BatchBuilder.takeReady] at taken
    split at taken
    · cases taken
      refine ⟨⟨ts ++ us, parts, _, reads', decodes', ?_, full, advances.holds, all'⟩, rfl, rfl,
        rfl⟩
      dsimp only
      rw [Option.toList_none, List.append_nil, out]
    · rename_i ready
      obtain ⟨⟨batch', b₂⟩, sealed_, same⟩ := map_eq_ok.mp taken
      cases same
      obtain ⟨buf, inSpan, frLeft⟩ := sealBatch_frame sealed_
      have some : held ++ us.map (rowOf kinds) ≠ [] := by
        intro none
        apply ready
        left
        rw [advances.holds.count, none]
        rfl
      refine ⟨⟨ts ++ us, parts ++ [held ++ us.map (rowOf kinds)], [], inSpan.symm ▸ reads',
        decodes', ?_, ?_, advances.holds.sealed sealed_, ?_⟩, buf, inSpan, frLeft⟩
      · dsimp only
        rw [Option.toList_some, out, advances.holds.batchOf sealed_, List.map_append,
          List.map_singleton]
      · intro part mem
        obtain mem | mem := List.mem_append.mp mem
        · exact full part mem
        · rw [List.mem_singleton.mp mem]
          exact some
      · rw [List.flatten_append, List.flatten_singleton, List.append_nil, all']

/-- A piece. -/
theorem Fed.send {piece rest : Bytes} (fed : Fed kinds x s (s.builder.buf ++ (piece ++ rest)))
    (stuck : Stuck kinds s.builder) :
    (∀ e, s.send piece = .error e → Refuses kinds false x e) ∧
      ∀ s', s.send piece = .ok s' → Fed kinds x s' (s'.builder.buf ++ rest) ∧
        Stuck kinds s'.builder ∧ s'.builder.frLeft = s.builder.frLeft := by
  obtain ⟨held, holds, ships⟩ := fed.ship
  obtain ⟨refuses, pushes⟩ := push_cases holds stuck piece
  constructor
  · intro e wrong
    obtain wrong | ⟨b, pushed, wrong⟩ := bind_eq_error.mp wrong
    · apply fed.refuses
      rw [← List.append_assoc]
      exact (refuses e wrong).append rest
    · obtain ⟨-, -, ts, advances⟩ := pushes b pushed
      have longer := advances.append rest
      rw [List.append_assoc] at longer
      exact .inl ((ships longer).1 e wrong)
  · intro s' is
    obtain ⟨b, pushed, is⟩ := bind_eq_ok.mp is
    obtain ⟨frLeft, stuck', ts, advances⟩ := pushes b pushed
    have longer := advances.append rest
    rw [List.append_assoc] at longer
    obtain ⟨fed', buf, inSpan, left⟩ := (ships longer).2 s' is
    refine ⟨?_, ?_, left.trans frLeft⟩
    · rw [buf]
      exact fed'
    · rw [Stuck, buf, inSpan]
      exact stuck'

theorem Fed.sendAll {pieces : List Bytes} (fed : Fed kinds x s (s.builder.buf ++ pieces.flatten))
    (stuck : Stuck kinds s.builder) :
    (∀ e, s.sendAll pieces = .error e → Refuses kinds false x e) ∧
      ∀ s', s.sendAll pieces = .ok s' → Fed kinds x s' s'.builder.buf ∧
        Stuck kinds s'.builder := by
  induction pieces generalizing s with
  | nil =>
      rw [List.flatten_nil, List.append_nil] at fed
      refine ⟨fun e wrong => (by cases wrong), ?_⟩
      intro s' is
      cases is
      exact ⟨fed, stuck⟩
  | cons piece pieces ih =>
      rw [List.flatten_cons] at fed
      obtain ⟨refuses, sends⟩ := fed.send stuck
      constructor
      · intro e wrong
        obtain wrong | ⟨s₁, sent, wrong⟩ := bind_eq_error.mp wrong
        · exact refuses e wrong
        · obtain ⟨fed₁, stuck₁, -⟩ := sends s₁ sent
          exact (ih fed₁ stuck₁).1 e wrong
      · intro s' is
        obtain ⟨s₁, sent, is⟩ := bind_eq_ok.mp is
        obtain ⟨fed₁, stuck₁, -⟩ := sends s₁ sent
        exact (ih fed₁ stuck₁).2 s' is

/-! ## The connection -/

namespace Conn

variable {c : Conn} {n : Nat} {ms : List Message}

theorem fill_ok (win : Bytes) (reads : List Chunk)
    (room : n ≤ (win ++ reads.flatMap Subtype.val).length) :
    ∃ c, fill n win reads = .ok c ∧ c.bytes = win ++ reads.flatMap Subtype.val ∧
      n ≤ c.win.length ∧ c.reads.length ≤ reads.length := by
  induction reads generalizing win with
  | nil =>
      rw [List.flatMap_nil, List.append_nil] at room ⊢
      refine ⟨⟨win, []⟩, if_neg (Nat.not_lt_of_le room), ?_, room, Nat.le_refl _⟩
      exact List.append_nil win
  | cons r reads ih =>
      rw [fill]
      split
      · rw [List.flatMap_cons, ← List.append_assoc] at room ⊢
        obtain ⟨c, is, bytes, long, less⟩ := ih _ room
        exact ⟨c, is, bytes, long, Nat.le_succ_of_le less⟩
      · rename_i long
        exact ⟨⟨win, r :: reads⟩, rfl, rfl, Nat.le_of_not_lt long, Nat.le_refl _⟩

/-- A read is never empty. -/
theorem refill_ok (more : c.reads.flatMap Subtype.val ≠ []) :
    ∃ c', c.refill = .ok c' ∧ c'.bytes = c.bytes ∧ c'.reads.length < c.reads.length := by
  rw [refill]
  cases is : c.reads with
  | nil =>
      rw [is] at more
      exact absurd rfl more
  | cons r reads =>
      refine ⟨_, rfl, ?_, Nat.lt_succ_self _⟩
      rw [bytes, bytes, is, List.flatMap_cons, List.append_assoc]

theorem bytes_advance (within : n ≤ c.win.length) : (c.advance n).bytes = c.bytes.drop n :=
  (List.drop_append_of_le_length within).symm

/-- A window that holds a header says what the message is. -/
theorem header {m : Message} {tail : Bytes} (bytes : c.bytes = encode m ++ tail) (fits : Fits m)
    (long : 5 ≤ c.win.length) : c.win.headD 0 = m.1 ∧ c.length = m.2.length + 4 := by
  obtain ⟨tag, announced, -⟩ := header_encode fits tail
  rw [← bytes, Conn.bytes, headD_append long] at tag
  rw [← bytes, Conn.bytes, lengthAt_append long] at announced
  exact ⟨tag, announced⟩

/-- A message that is not CopyData is passed over, and the last one ends the COPY. -/
theorem control_ok {m : Message} (copying : Copying (m :: ms)) (other : m.1 ≠ 100)
    (bytes : c.bytes = (m :: ms).flatMap encode) (lossy : Lossy) :
    ∃ over_ c', c.control lossy = .ok (over_, c') ∧ c'.bytes = ms.flatMap encode ∧
      c'.reads.length ≤ c.reads.length ∧ (over_ = true → ms = []) ∧
      (over_ = false → Copying ms) := by
  rw [List.flatMap_cons] at bytes
  obtain ⟨m', later, same, fits⟩ := copying.fits
  obtain ⟨rfl, rfl⟩ := List.cons.inj same
  have whole : 5 + m.2.length ≤ c.bytes.length := by
    rw [bytes, List.length_append, length_encode]
    exact Nat.le_add_right _ _
  obtain ⟨c₁, filled, bytes₁, long, less⟩ := fill_ok c.win c.reads
    (Nat.le_trans (Nat.le_add_right 5 _) whole)
  obtain ⟨tag, len⟩ := header (bytes₁.trans bytes) fits long
  obtain ⟨c₂, filled₂, bytes₂, long₂, less₂⟩ := fill_ok c₁.win c₁.reads (show
      1 + (m.2.length + 4) ≤ (c₁.win ++ c₁.reads.flatMap Subtype.val).length by
    have same : (c₁.win ++ c₁.reads.flatMap Subtype.val).length = c.bytes.length :=
      congrArg List.length bytes₁
    omega)
  have rest : (c₂.advance (1 + (m.2.length + 4))).bytes = ms.flatMap encode := by
    have all : c₂.bytes = encode m ++ ms.flatMap encode := bytes₂.trans (bytes₁.trans bytes)
    have exactly : 1 + (m.2.length + 4) = (encode m).length := by
      rw [length_encode]
      omega
    rw [bytes_advance long₂, all, exactly, List.drop_left]
  have fewer : (c₂.advance (1 + (m.2.length + 4))).reads.length ≤ c.reads.length :=
    Nat.le_trans less₂ less
  have small : m.2.length + 4 ≤ maxFrame := by
    cases copying with
    | last small => exact small
    | data => exact absurd rfl other
    | control _ small => exact small
  have positive : ¬ m.2.length + 4 < 4 := by omega
  rw [control, filled, Stop.ok_bind, len, if_neg positive, if_neg (Nat.not_lt_of_le small),
    filled₂, Stop.ok_bind, tag]
  cases copying with
  | last => exact ⟨true, _, rfl, rest, fewer, fun _ => rfl, Bool.noConfusion⟩
  | data => exact absurd rfl other
  | @control code _ _ quiet _ later =>
      refine ⟨false, _, ?_, rest, fewer, Bool.noConfusion, fun _ => later⟩
      have ready : code ≠ 90 := fun is => absurd (is ▸ quiet) (by decide)
      have failed : code ≠ 69 := fun is => absurd (is ▸ quiet) (by decide)
      dsimp only
      rw [if_neg ready, if_neg failed, if_pos quiet]

end Conn

/-! ## A COPY -/

theorem reading_ok {α : Type} {a : Except Error α} {r : α} (is : a = .ok r) :
    Worker.reading a = .ok r := by
  rw [is]
  rfl

/-- A round of a worker whose message still has some payload. -/
theorem turn_pushed {w : Worker} {left : Nat} (is : w.left = some (left + 1)) (lossy : Lossy) :
    w.turn lossy = (Worker.reading (Conn.fill 1 w.conn.win w.conn.reads)).bind fun conn =>
      (w.loader.send (conn.win.take (min conn.win.length (left + 1)))).map fun loader =>
        (false, ⟨loader, conn.advance (min conn.win.length (left + 1)),
          some (left + 1 - min conn.win.length (left + 1))⟩) := by
  cases w
  cases is
  rfl

theorem turn_between {w : Worker} (is : w.left = some 0) (lossy : Lossy) :
    w.turn lossy = (Worker.reading (Conn.fill 5 w.conn.win w.conn.reads)).bind fun conn =>
      if conn.win.headD 0 ≠ 100 then { w with conn := conn }.controlled lossy
      else if conn.length < 4 then .error (.err badLength)
      else .ok (false, { w with conn := conn.advance 5, left := some (conn.length - 4) }) := by
  cases w
  cases is
  rfl

theorem turn_framed {w : Worker} (is : w.left = none) (lossy : Lossy) :
    w.turn lossy = (Worker.reading (Conn.fill 1 w.conn.win w.conn.reads)).bind fun conn =>
      (w.loader.builder.pushFramed conn.win).bind fun r =>
        (w.loader.ship r.1).bind fun loader =>
          Worker.framed lossy ⟨loader, conn.advance r.2.1, none⟩ r.2.2 := by
  cases w
  cases is
  rfl

/-- A worker in a COPY of which the payloads of some messages are left. -/
structure Works (kinds : List ArrowKind) (x : Bytes) (w : Worker) (cur : Bytes)
    (ms : List Message) : Prop where
  copying : Copying ms
  bytes : w.conn.bytes = cur ++ ms.flatMap encode
  fed : Fed kinds x w.loader (w.loader.builder.buf ++ unread cur ms)
  stuck : Stuck kinds w.loader.builder
  framed : w.left = none → w.loader.builder.buf = [] ∧ w.loader.builder.frLeft = cur.length
  pushed : ∀ left, w.left = some left → w.loader.builder.frLeft = 0 ∧ left = cur.length

/-- A loader behind a COPY. -/
structure Copied (kinds : List ArrowKind) (x : Bytes) (s : Loader) : Prop where
  fed : Fed kinds x s s.builder.buf
  stuck : Stuck kinds s.builder
  frLeft : s.builder.frLeft = 0

/-- What a round comes to. -/
def Turned (kinds : List ArrowKind) (x : Bytes) (w : Worker) :
    Except (Stop Error) (Bool × Worker) → Prop
  | .error e => Refuses kinds false x e
  | .ok (true, w') => Copied kinds x w'.loader
  | .ok (false, w') => (∃ cur ms, Works kinds x w' cur ms) ∧ w'.size < w.size

namespace Works

variable {w : Worker} {cur : Bytes} {ms : List Message} {m : Message}

/-- At a message that is not CopyData. -/
theorem controlled (works : Works kinds x w [] (m :: ms)) (other : m.1 ≠ 100) {w₀ : Worker}
    (size : w.size ≤ w₀.size) (lossy : Lossy) :
    Turned kinds x w₀ (w.controlled lossy) := by
  have bytes := works.bytes
  rw [List.nil_append] at bytes
  obtain ⟨over_, c, is, rest, fewer, last, more⟩ :=
    Conn.control_ok works.copying other bytes lossy
  have skipped : unread [] (m :: ms) = unread [] ms := by
    rw [unread, payload_cons, if_neg other]
    rfl
  have fed := works.fed
  rw [skipped] at fed
  have empty (l : w.left = none ∨ ∃ left, w.left = some left) : w.loader.builder.frLeft = 0 := by
    obtain none | ⟨left, is⟩ := l
    · exact (works.framed none).2
    · exact (works.pushed left is).1
  rw [Worker.controlled, reading_ok is, Except.map]
  cases over_ with
  | true =>
      obtain rfl := last rfl
      have over_ : unread [] [] = [] := rfl
      rw [over_, List.append_nil] at fed
      refine ⟨fed, works.stuck, empty ?_⟩
      cases is : w.left with
      | none => exact .inl rfl
      | some left => exact .inr ⟨left, rfl⟩
  | false =>
      refine ⟨⟨[], ms, more rfl, rest, fed, works.stuck, works.framed, works.pushed⟩, ?_⟩
      have less : c.bytes.length < w.conn.bytes.length := by
        rw [rest, bytes, List.flatMap_cons, List.length_append, length_encode]
        omega
      refine Nat.lt_of_lt_of_le ?_ size
      simp only [Worker.size]
      omega

/-- A round of the framed plane. -/
theorem framed_turn (works : Works kinds x w cur ms) (is : w.left = none) (lossy : Lossy) :
    Turned kinds x w (w.turn lossy) := by
  obtain ⟨empty, left⟩ := works.framed is
  have fed := works.fed
  rw [empty, List.nil_append] at fed
  obtain ⟨m, later, ms_is, fits⟩ := works.copying.fits
  have waiting : 1 ≤ (w.conn.win ++ w.conn.reads.flatMap Subtype.val).length := by
    have len := congrArg List.length works.bytes
    rw [ms_is, List.flatMap_cons, List.length_append, List.length_append, length_encode,
      Conn.bytes] at len
    omega
  obtain ⟨c, filled, bytes, -, fewer⟩ := Conn.fill_ok _ _ waiting
  have at_ : At c.win (c.reads.flatMap Subtype.val) 0 cur ms :=
    ⟨works.copying, bytes.trans works.bytes, Nat.zero_le _⟩
  obtain ⟨held, holds, ships⟩ := fed.ship
  obtain ⟨refuses, pushes⟩ := pushes kinds c.win _ _ holds left at_ (Nat.lt_succ_self _)
  rw [turn_framed is, reading_ok filled, Stop.ok_bind]
  cases pushed : w.loader.builder.pushFramed c.win with
  | error e => exact fed.refuses (refuses e pushed)
  | ok found =>
      obtain ⟨b, fin, push⟩ := found
      obtain ⟨cur', ms', lands⟩ := pushes b fin push pushed
      obtain ⟨ts, advances⟩ := lands.advances
      obtain ⟨limits, shipped⟩ := ships advances
      rw [Stop.ok_bind]
      cases sent : w.loader.ship b with
      | error e => exact .inl (limits e sent)
      | ok s' =>
          obtain ⟨fed', buf, inSpan, frLeft⟩ := shipped s' sent
          have empty' : s'.builder.buf = [] := by rw [buf, lands.buf, empty]
          have stuck' : Stuck kinds s'.builder := by
            rw [Stuck, empty']
            exact next_nil _ _
          have bytes' : (c.advance fin).bytes = cur' ++ ms'.flatMap encode := lands.at_.bytes
          have shorter : (c.advance fin).bytes.length ≤ w.conn.bytes.length := by
            rw [Conn.bytes_advance lands.at_.inside, bytes, Conn.bytes, List.length_drop]
            exact Nat.sub_le _ _
          have works' (left : Option Nat)
              (framed : left = none → s'.builder.frLeft = cur'.length)
              (pushed : ∀ l, left = some l → s'.builder.frLeft = 0 ∧ l = cur'.length) :
              Works kinds x ⟨s', c.advance fin, left⟩ cur' ms' := by
            refine ⟨lands.at_.copying, bytes', ?_, stuck', ?_, pushed⟩
            · dsimp only
              rw [empty', List.nil_append]
              exact fed'
            · intro none
              exact ⟨empty', framed none⟩
          rw [Stop.ok_bind]
          have why := lands.pushed
          match push, why with
          | .needMore, ⟨more, frLeft'⟩ =>
              have works₁ := works' none (fun _ => frLeft.trans frLeft') fun l same =>
                (by cases same)
              obtain ⟨c', refilled, same, less⟩ := Conn.refill_ok (c := c.advance fin) more
              rw [Worker.framed, reading_ok refilled]
              refine ⟨⟨cur', ms', works₁.copying, same.trans bytes', works₁.fed, works₁.stuck,
                works₁.framed, works₁.pushed⟩, ?_⟩
              have fewer' : (c.advance fin).reads.length ≤ w.conn.reads.length := fewer
              simp only [Worker.size, same, is]
              omega
          | .control, ⟨zero, none_left, m, later, ms'_is, other⟩ =>
              have works₁ := works' none (fun _ => by rw [frLeft, zero, none_left]; rfl)
                fun l same => (by cases same)
              subst none_left ms'_is
              apply works₁.controlled other
              have fewer' : (c.advance fin).reads.length ≤ w.conn.reads.length := fewer
              simp only [Worker.size, is]
              omega
          | .straddle left', ⟨zero, left'_is⟩ =>
              refine ⟨⟨cur', ms', works' (some left') (fun none => (by cases none)) ?_⟩, ?_⟩
              · intro l same
                cases same
                exact ⟨frLeft.trans zero, left'_is⟩
              · have fewer' : (c.advance fin).reads.length ≤ w.conn.reads.length := fewer
                simp only [Worker.size, is, if_true, reduceCtorEq, if_false]
                omega

/-- A round between messages, behind an element that one has cut off. -/
theorem between_turn (works : Works kinds x w cur ms) (is : w.left = some 0)
    (lossy : Lossy) : Turned kinds x w (w.turn lossy) := by
  obtain ⟨zero, cur_is⟩ := works.pushed 0 is
  obtain rfl := List.length_eq_zero_iff.mp cur_is.symm
  obtain ⟨m, later, rfl, fits⟩ := works.copying.fits
  have waiting : 5 ≤ (w.conn.win ++ w.conn.reads.flatMap Subtype.val).length := by
    have len := congrArg List.length works.bytes
    rw [List.nil_append, List.flatMap_cons, List.length_append, length_encode, Conn.bytes] at len
    omega
  obtain ⟨c, filled, bytes, long, fewer⟩ := Conn.fill_ok _ _ waiting
  have bytes' : c.bytes = encode m ++ later.flatMap encode := bytes.trans works.bytes
  obtain ⟨tag, len⟩ := Conn.header bytes' fits long
  rw [turn_between is, reading_ok filled, Stop.ok_bind, tag, len]
  have size : Worker.size { w with conn := c } ≤ w.size := by
    have same : c.bytes.length = w.conn.bytes.length := congrArg List.length bytes
    simp only [Worker.size, same]
    omega
  by_cases data : m.1 = 100
  · obtain ⟨tag', body⟩ := m
    obtain rfl : tag' = 100 := data
    have positive : ¬ body.length + 4 < 4 := by omega
    rw [if_neg (not_not.mpr rfl), if_neg positive, Nat.add_sub_cancel]
    have rest : (c.advance 5).bytes = body ++ later.flatMap encode := by
      rw [Conn.bytes_advance long, bytes']
      exact (header_encode fits (later.flatMap encode)).2.2
    refine ⟨⟨body, later, works.copying.of_data, rest, ?_, works.stuck,
      fun none => (by cases none), ?_⟩, ?_⟩
    · have fed := works.fed
      rw [unread_data] at fed
      exact fed
    · intro left same
      cases same
      exact ⟨zero, rfl⟩
    · have shorter : (c.advance 5).bytes.length < w.conn.bytes.length := by
        rw [Conn.bytes_advance long, bytes, Conn.bytes, List.length_drop]
        omega
      have fewer' : (c.advance 5).reads.length ≤ w.conn.reads.length := fewer
      simp only [Worker.size, is, reduceCtorEq, if_false]
      omega
  · rw [if_pos data]
    have works₁ : Works kinds x { w with conn := c } [] (m :: later) :=
      ⟨works.copying, bytes', works.fed, works.stuck, works.framed, works.pushed⟩
    exact works₁.controlled data size lossy

/-- A round in a payload whose bytes are pushed. -/
theorem pushed_turn {left : Nat} (works : Works kinds x w cur ms)
    (is : w.left = some (left + 1)) (lossy : Lossy) :
    Turned kinds x w (w.turn lossy) := by
  obtain ⟨zero, cur_is⟩ := works.pushed _ is
  have waiting : 1 ≤ (w.conn.win ++ w.conn.reads.flatMap Subtype.val).length := by
    have len := congrArg List.length works.bytes
    rw [List.length_append, Conn.bytes] at len
    omega
  obtain ⟨c, filled, bytes, long, fewer⟩ := Conn.fill_ok _ _ waiting
  have bytes' : c.bytes = cur ++ ms.flatMap encode := bytes.trans works.bytes
  rw [turn_pushed is, reading_ok filled, Stop.ok_bind]
  generalize take_is : min c.win.length (left + 1) = take
  have took : 0 < take ∧ take ≤ c.win.length ∧ take ≤ cur.length := by omega
  have piece : c.win.take take = cur.take take := by
    have front := congrArg (List.take take) bytes'
    rwa [Conn.bytes, List.take_append_of_le_length took.2.1,
      List.take_append_of_le_length took.2.2] at front
  have fed := works.fed
  have split : unread cur ms = cur.take take ++ unread (cur.drop take) ms := by
    rw [unread, unread, ← List.append_assoc, List.take_append_drop]
  rw [split] at fed
  obtain ⟨refuses, sends⟩ := fed.send works.stuck
  rw [piece]
  cases sent : w.loader.send (cur.take take) with
  | error e => exact refuses e sent
  | ok s' =>
      obtain ⟨fed', stuck', frLeft⟩ := sends s' sent
      have rest : (c.advance take).bytes = cur.drop take ++ ms.flatMap encode := by
        rw [Conn.bytes_advance took.2.1, bytes', List.drop_append_of_le_length took.2.2]
      refine ⟨⟨cur.drop take, ms, works.copying, rest, fed', stuck',
        fun none => (by cases none), ?_⟩, ?_⟩
      · intro l same
        cases same
        refine ⟨frLeft.trans zero, ?_⟩
        rw [List.length_drop, cur_is]
      · have shorter : (c.advance take).bytes.length < w.conn.bytes.length := by
          rw [Conn.bytes_advance took.2.1, bytes, Conn.bytes, List.length_drop]
          have len : (w.conn.win ++ w.conn.reads.flatMap Subtype.val).length =
              c.bytes.length := congrArg List.length bytes.symm
          omega
        have fewer' : (c.advance take).reads.length ≤ w.conn.reads.length := fewer
        simp only [Worker.size, is, reduceCtorEq, if_false]
        omega

theorem turn (works : Works kinds x w cur ms) (lossy : Lossy) :
    Turned kinds x w (w.turn lossy) := by
  cases is : w.left with
  | none => exact works.framed_turn is lossy
  | some left =>
      cases left with
      | zero => exact works.between_turn is lossy
      | succ left => exact works.pushed_turn is lossy

theorem rounds {fuel : Nat} (works : Works kinds x w cur ms) (enough : w.size < fuel)
    (lossy : Lossy) :
    (∀ e, w.rounds lossy fuel = .error e → Refuses kinds false x e) ∧
      ∀ s, w.rounds lossy fuel = .ok s → Copied kinds x s := by
  induction fuel generalizing w cur ms with
  | zero => exact absurd enough (Nat.not_lt_zero _)
  | succ fuel ih =>
      have turned := works.turn lossy
      rw [Worker.rounds]
      cases is : w.turn lossy with
      | error e =>
          rw [is] at turned
          refine ⟨?_, fun s is => (by cases is)⟩
          intro e' wrong
          cases wrong
          exact turned
      | ok found =>
          obtain ⟨over_, w'⟩ := found
          rw [is] at turned
          rw [Stop.ok_bind]
          cases over_ with
          | true =>
              refine ⟨fun e wrong => (by cases wrong), ?_⟩
              intro s same
              cases same
              exact turned
          | false =>
              obtain ⟨⟨cur', ms', works'⟩, less⟩ := turned
              exact ih works' (by omega)

end Works

/-! ## Whole workers -/

/-- The messages of a COPY, and the reads that their bytes come in. -/
structure Wire where
  messages : List Message
  reads : List Chunk
  copying : Copying messages
  cut : reads.flatMap Subtype.val = messages.flatMap encode

namespace Wire

def payload (w : Wire) : Bytes := Walsender.payload w.messages

/-- The payload is whole spans. -/
def Whole (n : Nat) (w : Wire) : Prop := ∃ ts, (spans n).parse false w.payload = .ok (ts, false, [])

end Wire

theorem Fed.append (fed : Fed kinds x s y) (z : Bytes) : Fed kinds (x ++ z) s (y ++ z) := by
  obtain ⟨ts, parts, held, reads, rest⟩ := fed
  exact ⟨ts, parts, held, reads.append z, rest⟩

/-- A loader between spans, with nothing kept. -/
structure Between (kinds : List ArrowKind) (x : Bytes) (s : Loader) : Prop where
  fed : Fed kinds x s []
  buf : s.builder.buf = []
  inSpan : s.builder.inSpan = false
  frLeft : s.builder.frLeft = 0

theorem Between.copyOut (between : Between kinds x s) (w : Wire) (lossy : Lossy) :
    (∀ e, Worker.copyOut lossy s w.reads = .error e → Refuses kinds false (x ++ w.payload) e) ∧
      ∀ s', Worker.copyOut lossy s w.reads = .ok s' → Copied kinds (x ++ w.payload) s' := by
  have fed := between.fed.append w.payload
  have stuck : Stuck kinds s.builder := by
    rw [Stuck, between.buf]
    exact next_nil _ _
  have works : Works kinds (x ++ w.payload) ⟨s, ⟨[], w.reads⟩, none⟩ [] w.messages := by
    refine ⟨w.copying, w.cut, ?_, stuck, fun _ => ⟨between.buf, between.frLeft⟩, ?_⟩
    · dsimp only
      rw [between.buf]
      exact fed
    · intro left is
      cases is
  exact works.rounds (Nat.lt_succ_self _) lossy

/-- What is read of whole spans is all of them. -/
theorem Copied.between (copied : Copied kinds x s)
    (whole : ∃ ts, (spans kinds.length).parse false x = .ok (ts, false, [])) :
    Between kinds x s := by
  obtain ⟨ts, all⟩ := whole
  have fed := copied.fed
  obtain ⟨us, parts, held, reads, rest⟩ := copied.fed
  rw [reads.parse_eq copied.stuck] at all
  obtain ⟨-, inSpan, buf⟩ : us = ts ∧ s.builder.inSpan = false ∧ s.builder.buf = [] := by
    have same := Except.ok.inj all
    exact ⟨congrArg Prod.fst same, congrArg (Prod.fst ∘ Prod.snd) same,
      congrArg (Prod.snd ∘ Prod.snd) same⟩
  rw [buf] at fed
  exact ⟨fed, buf, inSpan, copied.frLeft⟩

theorem whole_append (front : ∃ ts, (spans kinds.length).parse false x = .ok (ts, false, []))
    (back : ∃ ts, (spans kinds.length).parse false y = .ok (ts, false, [])) :
    ∃ ts, (spans kinds.length).parse false (x ++ y) = .ok (ts, false, []) := by
  obtain ⟨ts, front⟩ := front
  obtain ⟨us, back⟩ := back
  refine ⟨ts ++ us, ?_⟩
  rw [Elements.parse_append front, List.nil_append, back]
  rfl

theorem Between.copies {ws : List Wire} (between : Between kinds x s) (last : Wire)
    (before : ∃ ts, (spans kinds.length).parse false x = .ok (ts, false, []))
    (whole : ∀ w ∈ ws, w.Whole kinds.length) (lossy : Lossy) :
    (∀ e, Worker.copies lossy s (ws.map Wire.reads ++ [last.reads]) = .error e →
      Refuses kinds false (x ++ (ws ++ [last]).flatMap Wire.payload) e) ∧
      ∀ s', Worker.copies lossy s (ws.map Wire.reads ++ [last.reads]) = .ok s' →
        Copied kinds (x ++ (ws ++ [last]).flatMap Wire.payload) s' := by
  induction ws generalizing x s with
  | nil =>
      rw [List.nil_append, List.flatMap_singleton]
      obtain ⟨refuses, copied⟩ := between.copyOut last lossy
      constructor
      · intro e wrong
        obtain wrong | ⟨s', -, wrong⟩ := bind_eq_error.mp wrong
        · exact refuses e wrong
        · cases wrong
      · intro s' is
        obtain ⟨s₁, copy, is⟩ := bind_eq_ok.mp is
        cases is
        exact copied _ copy
  | cons w ws ih =>
      have whole_w := whole_append before (whole w List.mem_cons_self)
      have all : x ++ (w :: ws ++ [last]).flatMap Wire.payload =
          (x ++ w.payload) ++ (ws ++ [last]).flatMap Wire.payload := by
        rw [List.cons_append, List.flatMap_cons, List.append_assoc]
      obtain ⟨refuses, copied⟩ := between.copyOut w lossy
      rw [all]
      constructor
      · intro e wrong
        obtain wrong | ⟨s₁, copy, wrong⟩ := bind_eq_error.mp wrong
        · exact (refuses e wrong).append _
        · exact (ih ((copied s₁ copy).between whole_w) whole_w
            fun v mem => whole v (List.mem_cons_of_mem _ mem)).1 e wrong
      · intro s' is
        obtain ⟨s₁, copy, is⟩ := bind_eq_ok.mp is
        exact (ih ((copied s₁ copy).between whole_w) whole_w
          fun v mem => whole v (List.mem_cons_of_mem _ mem)).2 s' is

/-- The batches of some tuples: the columns of consecutive rows, but for a limit. -/
def Yields (kinds : List ArrowKind) (ts : List (List (Option Bytes))) :
    Except (Stop Error) (List ArrowBatch) → Prop
  | .ok out => ∃ parts : List (List (List CellVal)), out = parts.map (batchOf kinds) ∧
      (∀ part ∈ parts, part ≠ []) ∧ parts.flatten = ts.map (rowOf kinds)
  | .error e => Limit e

/-- Whole spans of tuples that decode. -/
def Sound (kinds : List ArrowKind) (x : Bytes) (ts : List (List (Option Bytes))) : Prop :=
  (spans kinds.length).Taken (Decodes kinds) false x ts false []

/-- What a plane comes to on a stream. -/
def Outcome (kinds : List ArrowKind) (x : Bytes)
    (result : Except (Stop Error) (List ArrowBatch)) : Prop :=
  (∃ ts, Sound kinds x ts ∧ Yields kinds ts result) ∨
    (∀ ts, ¬ Sound kinds x ts) ∧ ∃ e, result = .error e

theorem outcome_refuses (refuses : Refuses kinds false x e) : Outcome kinds x (.error e) := by
  by_cases sound : ∃ ts, Sound kinds x ts
  · obtain ⟨ts, sound⟩ := sound
    obtain limit | refused := refuses
    · exact .inl ⟨ts, sound, limit⟩
    · exact absurd sound refused.not_taken
  · exact .inr ⟨fun ts is => sound ⟨ts, is⟩, e, rfl⟩

/-- At the end of the stream. -/
theorem Fed.finish (fed : Fed kinds x s s.builder.buf) (stuck : Stuck kinds s.builder) :
    Outcome kinds x s.finish := by
  obtain ⟨ts, parts, held, reads, decodes, out, full, holds, all⟩ := fed
  have parsed := reads.parse_eq stuck
  rw [Loader.finish, BatchBuilder.finish]
  by_cases open_ : (s.builder.inSpan || !s.builder.buf.isEmpty) = true
  · rw [if_pos open_]
    refine .inr ⟨?_, _, rfl⟩
    rintro us ⟨other, -⟩
    rw [parsed] at other
    have same := Except.ok.inj other
    have inSpan : s.builder.inSpan = false := congrArg (Prod.fst ∘ Prod.snd) same
    have buf : s.builder.buf = [] := congrArg (Prod.snd ∘ Prod.snd) same
    rw [inSpan, buf] at open_
    cases open_
  · rw [if_neg open_]
    have closed := Bool.eq_false_iff.mpr open_
    rw [Bool.or_eq_false_iff, Bool.not_eq_false', List.isEmpty_iff] at closed
    rw [closed.1, closed.2] at parsed
    refine .inl ⟨ts, ⟨parsed, decodes⟩, ?_⟩
    by_cases none : s.builder.rows = 0
    · rw [if_pos none]
      have empty : held = [] := List.length_eq_zero_iff.mp (holds.count.symm.trans none)
      rw [empty, List.append_nil] at all
      exact ⟨parts, by rw [← out]; exact List.append_nil _, full, all⟩
    · rw [if_neg none]
      cases sealed_ : s.builder.sealBatch with
      | error e => exact sealBatch_error sealed_
      | ok found =>
          obtain ⟨batch, b⟩ := found
          have some : held ≠ [] := by
            intro empty
            rw [empty] at holds
            exact none holds.count
          refine ⟨parts ++ [held], ?_, ?_, ?_⟩
          · rw [List.map_append, List.map_singleton, ← out, ← holds.batchOf sealed_]
            rfl
          · intro part mem
            obtain mem | mem := List.mem_append.mp mem
            · exact full part mem
            · rw [List.mem_singleton.mp mem]
              exact some
          · rw [List.flatten_append, List.flatten_singleton, all]

theorem between_new (batchBytes : Nat) : Between kinds [] (.new kinds batchBytes) :=
  ⟨fed_new batchBytes, rfl, rfl, rfl⟩

/-- A span of one row. -/
def oneRow : Bytes :=
  Copy.signature ++ [0, 0, 0, 0, 0, 0, 0, 0] ++ [0, 1, 0, 0, 0, 2, 0, 7] ++ Copy.trailer

/-- Its tuple cut by the end of a message. -/
def cutRow : List Message := [(100, oneRow.take 23), (100, oneRow.drop 23), (99, []), (90, [73])]

theorem copying_cutRow : Copying cutRow :=
  .data (by decide) (.data (by decide) (.control (by decide) (by decide) (.last (by decide))))

/-- All of it in one read. -/
def cutWire : Wire :=
  ⟨cutRow, [⟨cutRow.flatMap encode, fun none => (by cases none)⟩], copying_cutRow,
    by rw [List.flatMap_singleton]⟩

end Apitap.Arrow
