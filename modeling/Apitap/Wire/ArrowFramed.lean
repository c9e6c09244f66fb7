import Apitap.Wire.ArrowBuffered
import Apitap.Wire.Scanners

/-!
# The framed Arrow plane

The window stands in the payload of a message, with other messages behind it. What is walked of
it are the elements of the payloads one behind the other, and where the walk stops there is more
to read, a message that is not CopyData, or an element that its message cuts off.
-/

namespace Apitap.Arrow

open Foundation
open Copy (fromBe fromBeInt)
open Walsender (Message Fits encode lengthAt maxFrame payload payload_cons header_encode
  length_encode headD_append lengthAt_append)

variable {kinds : List ArrowKind} {rows : List (List CellVal)} {b b' : BatchBuilder}
  {e : Stop Error} {ncols pos fin k : Nat} {win rest cur body x y : Bytes} {ms later : List Message}

/-- The messages of a COPY, up to ReadyForQuery. -/
inductive Copying : List Message → Prop where
  | last {body : Bytes} (small : body.length + 4 ≤ maxFrame) : Copying [(90, body)]
  | data {body : Bytes} {ms : List Message} (fits : body.length + 4 < 2 ^ 32)
      (later : Copying ms) : Copying ((100, body) :: ms)
  | control {tag : UInt8} {body : Bytes} {ms : List Message} (quiet : tag ∈ [99, 67, 83, 78, 65])
      (small : body.length + 4 ≤ maxFrame) (later : Copying ms) : Copying ((tag, body) :: ms)

theorem Copying.fits (copying : Copying ms) : ∃ m later, ms = m :: later ∧ Fits m := by
  have cap : maxFrame < 2 ^ 32 := by decide
  cases copying with
  | last small => exact ⟨_, _, rfl, Nat.lt_of_le_of_lt small cap⟩
  | data fits => exact ⟨_, _, rfl, fits⟩
  | control _ small => exact ⟨_, _, rfl, Nat.lt_of_le_of_lt small cap⟩

theorem Copying.of_data (copying : Copying ((100, body) :: later)) : Copying later := by
  cases copying with
  | data _ later => exact later
  | control quiet => exact absurd quiet (by decide)

/-- What the payloads still have. -/
def unread (cur : Bytes) (ms : List Message) : Bytes := cur ++ payload ms

theorem unread_data : unread [] ((100, body) :: later) = unread body later := by
  rw [unread, payload_cons, if_pos rfl]
  rfl

/-- Where a walk over the window stands: in a payload of which so much is left, with messages
behind it. -/
structure At (win rest : Bytes) (pos : Nat) (cur : Bytes) (ms : List Message) : Prop where
  copying : Copying ms
  bytes : win.drop pos ++ rest = cur ++ ms.flatMap encode
  inside : pos ≤ win.length

namespace At

/-- The payload as far as the window has it. -/
theorem region (at_ : At win rest pos cur ms) :
    (win.take (min (pos + cur.length) win.length)).drop pos =
      cur.take (min (pos + cur.length) win.length - pos) := by
  have room : min (pos + cur.length) win.length - pos ≤ (win.drop pos).length := by
    rw [List.length_drop]
    omega
  have onward : (win.drop pos ++ rest).take _ = (win.drop pos).take _ :=
    List.take_append_of_le_length room
  rw [List.drop_take, ← onward, at_.bytes, List.take_append_of_le_length (by omega)]

theorem forward (at_ : At win rest pos cur ms) (ours : k ≤ cur.length)
    (room : pos + k ≤ win.length) : At win rest (pos + k) (cur.drop k) ms := by
  refine ⟨at_.copying, ?_, room⟩
  have within : k ≤ (win.drop pos).length := by
    rw [List.length_drop]
    omega
  rw [← List.drop_drop, ← List.drop_append_of_le_length within, at_.bytes,
    List.drop_append_of_le_length ours]

/-- What an element of the payload in the window says, it says of all that is not read. -/
theorem next {r : Option (Nat × Bool × Option (List (Option Bytes)))} {s : Bool} {n : Nat}
    (at_ : At win rest pos cur ms)
    (read : (spans n).next s ((win.take (min (pos + cur.length) win.length)).drop pos) = .ok r)
    (some : r ≠ none) : (spans n).next s (unread cur ms) = .ok r := by
  obtain ⟨r, rfl⟩ := Option.ne_none_iff_exists'.mp some
  have longer := (spans n).next_append
    (cur.drop (min (pos + cur.length) win.length - pos) ++ payload ms) read
  rw [at_.region, ← List.append_assoc, List.take_append_drop] at longer
  exact longer

theorem next_error {s : Bool} {n : Nat} (at_ : At win rest pos cur ms)
    (read : (spans n).next s ((win.take (min (pos + cur.length) win.length)).drop pos) = .error e) :
    (spans n).next s (unread cur ms) = .error e := by
  have longer := (spans n).next_error
    (cur.drop (min (pos + cur.length) win.length - pos) ++ payload ms) read
  rw [at_.region, ← List.append_assoc, List.take_append_drop] at longer
  exact longer

/-- Where the payload goes on past the window there is more to read. -/
theorem more (at_ : At win rest pos cur ms) (past : win.length < pos + cur.length) :
    rest ≠ [] := by
  intro none
  have len := congrArg List.length at_.bytes
  rw [none, List.append_nil, List.length_drop, List.length_append] at len
  have inside := at_.inside
  omega

/-- What is found behind a payload. -/
theorem hop_cases (at_ : At win rest pos [] ms) :
    (hop win pos = .ok (.inl .needMore) ∧ rest ≠ []) ∨
      (hop win pos = .ok (.inl .control) ∧ ∃ m later, ms = m :: later ∧ m.1 ≠ 100) ∨
      ∃ body later, ms = (100, body) :: later ∧ hop win pos = .ok (.inr body.length) ∧
        pos + 5 ≤ win.length ∧ At win rest (pos + 5) body later := by
  obtain ⟨m, later, rfl, fits⟩ := at_.copying.fits
  have bytes := at_.bytes
  have inside := at_.inside
  have len := congrArg List.length bytes
  rw [List.nil_append, List.flatMap_cons] at bytes
  rw [List.nil_append, List.flatMap_cons, List.length_append, List.length_append, length_encode,
    List.length_drop] at len
  obtain ⟨tag, announced, behind⟩ := header_encode fits (later.flatMap encode)
  rw [hop]
  by_cases short : win.length - pos < 5
  · left
    refine ⟨if_pos short, ?_⟩
    intro none
    rw [none, List.length_nil] at len
    omega
  · have long : 5 ≤ (win.drop pos).length := by
      rw [List.length_drop]
      omega
    rw [← bytes, headD_append long] at tag
    rw [← bytes, lengthAt_append long] at announced
    rw [← bytes, List.drop_append_of_le_length long, List.drop_drop] at behind
    have len_is : fromBe ((win.drop (pos + 1)).take 4) = m.2.length + 4 := by
      rw [← announced, lengthAt, List.drop_drop]
    right
    rw [if_neg short, tag, len_is]
    by_cases data : m.1 = 100
    · right
      obtain ⟨tag', body⟩ := m
      obtain rfl : tag' = 100 := data
      refine ⟨body, later, rfl, ?_, by omega, at_.copying.of_data, behind, by omega⟩
      rw [if_neg (not_not.mpr rfl)]
      dsimp only
      rw [if_neg (by omega), Nat.add_sub_cancel]
    · left
      rw [if_pos data]
      exact ⟨rfl, m, later, rfl, data⟩

end At

/-! ## Staging in a window -/

/-- Why no more is staged, read off what is not read. -/
def Stops (ncols : Nat) (win rest : Bytes) (fin : Nat) (cur : Bytes) (ms : List Message) :
    StageStopF → Prop
  | .full => True
  | .needMore => rest ≠ []
  | .control => cur = [] ∧ ∃ m later, ms = m :: later ∧ m.1 ≠ 100
  | .straddle => True
  | .trailer => 2 ≤ cur.length ∧ fin + 2 ≤ win.length ∧
      (spans ncols).next true (unread cur ms) = .ok (some (2, false, none))

theorem stops_cut (at_ : At win rest pos cur ms) :
    Stops ncols win rest pos cur ms (cut win pos cur.length) := by
  rw [cut]
  split
  · rename_i past
    exact at_.more past
  · trivial

theorem stageFramed_cases (ncols fuel : Nat) (staged : List Staged) (at_ : At win rest pos cur ms) :
    (∀ e, stageFramed ncols win fuel cur.length pos staged = .error e → e = .err pastWindow ∨
      ∃ ts c, (spans ncols).Reads true (unread cur ms) ts true c ∧
        ∃ e, (spans ncols).next true c = .error e) ∧
      ∀ all fin left stop,
        stageFramed ncols win fuel cur.length pos staged = .ok (all, fin, left, stop) →
          ∃ cur' ms', At win rest fin cur' ms' ∧ left = cur'.length ∧ pos ≤ fin ∧
            (∃ more ts, all = staged ++ more ∧
              StagedAs ncols win more (unread cur ms) ts (unread cur' ms')) ∧
            Stops ncols win rest fin cur' ms' stop ∧
            (stop = .full → 0 < fuel → staged.length < stK → pos < fin) := by
  induction fuel generalizing pos cur ms staged with
  | zero =>
      refine ⟨fun e wrong => (by cases wrong), ?_⟩
      intro all fin left stop is
      cases is
      exact ⟨cur, ms, at_, rfl, Nat.le_refl _, ⟨[], [], (List.append_nil _).symm, .nil _⟩,
        trivial, fun _ none => absurd none (Nat.lt_irrefl 0)⟩
  | succ fuel ih =>
      rw [stageFramed]
      -- Nothing more is staged.
      have ends (stop : StageStopF) (why : Stops ncols win rest pos cur ms stop)
          (full : stop = .full → stK ≤ staged.length) :
          ∃ cur' ms', At win rest pos cur' ms' ∧ cur.length = cur'.length ∧ pos ≤ pos ∧
            (∃ more ts, staged = staged ++ more ∧
              StagedAs ncols win more (unread cur ms) ts (unread cur' ms')) ∧
            Stops ncols win rest pos cur' ms' stop ∧
            (stop = .full → 0 < fuel + 1 → staged.length < stK → pos < pos) :=
        ⟨cur, ms, at_, rfl, Nat.le_refl _, ⟨[], [], (List.append_nil _).symm, .nil _⟩, why,
          fun is _ few => absurd few (Nat.not_lt_of_le (full is))⟩
      by_cases many : stK ≤ staged.length
      · rw [if_pos many]
        refine ⟨fun e wrong => (by cases wrong), ?_⟩
        intro all fin left stop is
        cases is
        exact ends .full trivial fun _ => many
      · rw [if_neg many]
        by_cases none_ : cur.length = 0
        · obtain rfl := List.length_eq_zero_iff.mp none_
          rw [if_pos none_]
          obtain ⟨hopped, more⟩ | ⟨hopped, m, later, is_ms, tag⟩ |
            ⟨body, later, rfl, hopped, on, next⟩ := at_.hop_cases
          · rw [hopped]
            refine ⟨fun e wrong => (by cases wrong), ?_⟩
            intro all fin left stop is
            cases is
            exact ends .needMore more StageStopF.noConfusion
          · rw [hopped]
            refine ⟨fun e wrong => (by cases wrong), ?_⟩
            intro all fin left stop is
            cases is
            exact ends .control ⟨rfl, m, later, is_ms, tag⟩ StageStopF.noConfusion
          · rw [hopped, unread_data]
            obtain ⟨refuses, stages⟩ := ih staged next
            refine ⟨refuses, ?_⟩
            intro all fin left stop is
            obtain ⟨cur', ms', at', left_is, le, staged_as, stops, -⟩ :=
              stages all fin left stop is
            exact ⟨cur', ms', at', left_is, by omega, staged_as, stops, fun _ _ _ => by omega⟩
        · rw [if_neg none_]
          have within : min (pos + cur.length) win.length ≤ win.length := Nat.min_le_right _ _
          have inside := at_.inside
          obtain ⟨refuses, short, last, whole⟩ :=
            stageOne_cases ncols pos within (by omega)
          cases one : stageOne ncols win (min (pos + cur.length) win.length) pos with
          | error e =>
              refine ⟨?_, fun all fin left stop is => (by cases is)⟩
              intro e' wrong
              cases wrong
              apply (refuses e one).imp_right
              intro wrong
              exact ⟨[], _, .done _ _, e, at_.next_error wrong⟩
          | ok found =>
              match found, one with
              | none, one =>
                  refine ⟨fun e wrong => (by cases wrong), ?_⟩
                  intro all fin left stop is
                  cases is
                  apply ends _ (stops_cut at_)
                  rw [cut]
                  split <;> exact StageStopF.noConfusion
              | some none, one =>
                  refine ⟨fun e wrong => (by cases wrong), ?_⟩
                  intro all fin left stop is
                  cases is
                  obtain ⟨room, closes⟩ := last one
                  apply ends .trailer _ StageStopF.noConfusion
                  exact ⟨by omega, by omega, at_.next closes (Option.some_ne_none _)⟩
              | some (some (row, o)), one =>
                  obtain ⟨from_, upto, fs, first, read⟩ := whole row o one
                  have first' := at_.next first (Option.some_ne_none _)
                  have forward := at_.forward (k := o - pos) (by omega) (by omega)
                  have place : pos + (o - pos) = o := by omega
                  rw [place] at forward
                  have drops : (unread cur ms).drop (o - pos) =
                      unread (cur.drop (o - pos)) ms :=
                    List.drop_append_of_le_length (by omega)
                  have left : cur.length - (o - pos) = (cur.drop (o - pos)).length :=
                    List.length_drop.symm
                  dsimp only
                  rw [left]
                  obtain ⟨later_refuses, later⟩ := ih (staged ++ [row]) forward
                  refine ⟨?_, ?_⟩
                  · intro e wrong
                    apply (later_refuses e wrong).imp_right
                    rintro ⟨ts, c, reads, wrong⟩
                    rw [← drops] at reads
                    exact ⟨fs :: ts, c, .more first' reads, wrong⟩
                  · intro all fin left stop is
                    obtain ⟨cur', ms', at', left_is, le, ⟨more, ts, all_is, staged_as⟩, stops,
                      -⟩ := later all fin left stop is
                    rw [← drops] at staged_as
                    exact ⟨cur', ms', at', left_is, by omega, ⟨row :: more, fs :: ts,
                      by rw [all_is, List.append_assoc]; rfl, staged_as.cons first' read⟩,
                      stops, fun _ _ _ => by omega⟩

/-- Tuples of the window, in the builder. -/
theorem stageWindow_cases (holds : Holds kinds b rows) (within : b.inSpan = true)
    (left : b.frLeft = cur.length) (at_ : At win rest pos cur ms) :
    (∀ e, b.stageWindow win pos = .error e → Refuses kinds b.inSpan (unread cur ms) e) ∧
      ∀ b' fin stop, b.stageWindow win pos = .ok (b', fin, stop) →
        pos ≤ fin ∧ ∃ cur' ms', At win rest fin cur' ms' ∧ b'.frLeft = cur'.length ∧
          b'.buf = b.buf ∧ b'.inSpan = true ∧ (∃ ts, Advances kinds rows b (unread cur ms) ts b'
            (unread cur' ms')) ∧
          Stops kinds.length win rest fin cur' ms' stop ∧ (stop = .full → pos < fin) := by
  obtain ⟨refuses, stages⟩ :=
    stageFramed_cases kinds.length (win.length + 1) [] at_
  rw [BatchBuilder.stageWindow, holds.cols, left]
  constructor
  · intro e wrong
    obtain wrong | ⟨⟨all, fin, left', stop⟩, staged, wrong⟩ := bind_eq_error.mp wrong
    · obtain rfl | ⟨ts, c, reads, bad⟩ := refuses e wrong
      · exact .inl .window
      · exact .inr ⟨ts, true, c, within ▸ reads, .inl bad⟩
    · obtain ⟨cur', ms', -, -, -, ⟨more, ts, rfl, staged_as⟩, -⟩ :=
        stages all fin left' stop staged
      have holds' := holds.framed b.buf b.inSpan left'
      exact (decodeAt_cases holds' within staged_as).2 e (map_eq_error.mp wrong)
  · intro b' fin stop is
    obtain ⟨⟨all, fin', left', stop'⟩, staged, is⟩ := bind_eq_ok.mp is
    obtain ⟨b₁, decoded, same⟩ := map_eq_ok.mp is
    cases same
    obtain ⟨cur', ms', at', left_is, le, ⟨more, ts, rfl, staged_as⟩, stops, full⟩ :=
      stages all fin left' stop staged
    have holds' := holds.framed b.buf b.inSpan left'
    obtain ⟨frame, advances⟩ := (decodeAt_cases holds' within staged_as).1 b' decoded
    exact ⟨le, cur', ms', at', frame.frLeft.trans left_is, frame.buf, frame.inSpan.trans within,
      ⟨ts, advances.reads, advances.holds, advances.decodes⟩, stops,
      fun is => full is (Nat.succ_pos _) (by decide)⟩

/-! ## A push -/

/-- What a push leaves: where it stands, and why it stopped. -/
def Pushed (rest : Bytes) (b : BatchBuilder) (cur : Bytes) (ms : List Message) :
    FramedPush → Prop
  | .needMore => rest ≠ [] ∧ b.frLeft = cur.length
  | .control => b.frLeft = 0 ∧ cur = [] ∧ ∃ m later, ms = m :: later ∧ m.1 ≠ 100
  | .straddle left => b.frLeft = 0 ∧ left = cur.length

/-- A builder that stands in a payload of the window is done with the push. -/
structure Lands (kinds : List ArrowKind) (rows : List (List CellVal)) (win rest : Bytes)
    (b : BatchBuilder) (x : Bytes) (b' : BatchBuilder) (fin : Nat) (push : FramedPush) (cur : Bytes)
    (ms : List Message) : Prop where
  at_ : At win rest fin cur ms
  buf : b'.buf = b.buf
  advances : ∃ ts, Advances kinds rows b x ts b' (unread cur ms)
  pushed : Pushed rest b' cur ms push

/-- What a push comes to. -/
def PushEnds (kinds : List ArrowKind) (rows : List (List CellVal)) (win rest : Bytes)
    (b : BatchBuilder) (x : Bytes) (r : Except (Stop Error) (BatchBuilder × Nat × FramedPush)) :
    Prop :=
  (∀ e, r = .error e → Refuses kinds b.inSpan x e) ∧
    ∀ b' fin push, r = .ok (b', fin, push) →
      ∃ cur ms, Lands kinds rows win rest b x b' fin push cur ms

section PushEnds

variable {r : Except (Stop Error) (BatchBuilder × Nat × FramedPush)} {fuel : Nat}

/-- Behind some elements the rest is a push of its own. -/
theorem PushEnds.behind {b₀ : BatchBuilder} {rows₀ : List (List CellVal)} {x₀ : Bytes}
    {ts : List (List (Option Bytes))}
    (out : PushEnds kinds (rows₀ ++ ts.map (rowOf kinds)) win rest b x r) (buf : b.buf = b₀.buf)
    (before : Advances kinds rows₀ b₀ x₀ ts b x) : PushEnds kinds rows₀ win rest b₀ x₀ r := by
  constructor
  · intro e wrong
    exact (out.1 e wrong).behind before
  · intro b' fin push is
    obtain ⟨cur, ms, lands⟩ := out.2 b' fin push is
    obtain ⟨us, later⟩ := lands.advances
    exact ⟨cur, ms, lands.at_, lands.buf.trans buf, ⟨_, before.trans later⟩, lands.pushed⟩

theorem PushEnds.refused (refuses : Refuses kinds b.inSpan x e) :
    PushEnds kinds rows win rest b x (.error e) := by
  refine ⟨?_, fun b' fin push is => (by cases is)⟩
  intro e' wrong
  cases wrong
  exact refuses

theorem PushEnds.landed {push : FramedPush} {ts : List (List (Option Bytes))} (frLeft : Nat)
    (buf : b'.buf = b.buf) (at_ : At win rest fin cur ms)
    (before : Advances kinds rows b x ts b' (unread cur ms))
    (pushed : Pushed rest { b' with frLeft := frLeft } cur ms push) :
    PushEnds kinds rows win rest b x (.ok ({ b' with frLeft := frLeft }, fin, push)) := by
  refine ⟨fun e wrong => (by cases wrong), ?_⟩
  intro b'' fin' push' is
  cases is
  exact ⟨cur, ms, at_, buf, ⟨ts, before.framed b'.buf frLeft⟩, pushed⟩

/-- What a push comes to from wherever it stands with so much of the window before it. -/
def Pushes (kinds : List ArrowKind) (win rest : Bytes) (fuel : Nat) : Prop :=
  ∀ {b : BatchBuilder} {rows : List (List CellVal)} {pos : Nat} {cur : Bytes} {ms : List Message},
    Holds kinds b rows → b.frLeft = cur.length → At win rest pos cur ms →
      win.length - pos < fuel →
        PushEnds kinds rows win rest b (unread cur ms) (b.pushFrom win fuel pos)

/-- A round that took something. -/
theorem Pushes.goes_on (pushes : Pushes kinds win rest fuel) (enough : win.length - pos < fuel + 1)
    {ts : List (List (Option Bytes))} (buf : b'.buf = b.buf) (left : b'.frLeft = cur.length)
    (at_ : At win rest fin cur ms) (on : pos < fin)
    (before : Advances kinds rows b x ts b' (unread cur ms)) :
    PushEnds kinds rows win rest b x (b'.pushFrom win fuel fin) := by
  have inside := at_.inside
  exact (pushes before.holds left at_ (by omega)).behind buf before

/-- Between two payloads. -/
theorem Pushes.hops (pushes : Pushes kinds win rest fuel) (holds : Holds kinds b rows)
    (none_ : b.frLeft = 0) (at_ : At win rest pos [] ms) (enough : win.length - pos < fuel + 1) :
    PushEnds kinds rows win rest b (unread [] ms) (b.pushFrom win (fuel + 1) pos) := by
  rw [BatchBuilder.pushFrom, if_pos none_]
  obtain ⟨hopped, more⟩ | ⟨hopped, m, later, is_ms, tag⟩ |
    ⟨body, later, rfl, hopped, on, next⟩ := at_.hop_cases
  · rw [hopped]
    exact .landed b.frLeft rfl at_ (.refl holds _) ⟨more, none_⟩
  · rw [hopped]
    exact .landed b.frLeft rfl at_ (.refl holds _) ⟨none_, rfl, m, later, is_ms, tag⟩
  · rw [hopped, unread_data]
    have entered := (Advances.refl holds (unread body later)).framed b.buf body.length
    refine pushes.goes_on enough ?_ ?_ next (by omega) entered
    · rfl
    · rfl

/-- Before the header of a span. -/
theorem Pushes.enters (pushes : Pushes kinds win rest fuel) (holds : Holds kinds b rows)
    (left : b.frLeft = cur.length) (at_ : At win rest pos cur ms) (open_ : b.frLeft ≠ 0)
    (out : b.inSpan = false) (enough : win.length - pos < fuel + 1) :
    PushEnds kinds rows win rest b (unread cur ms) (b.pushFrom win (fuel + 1) pos) := by
  have inside := at_.inside
  have within : min (pos + cur.length) win.length ≤ win.length := Nat.min_le_right _ _
  rw [BatchBuilder.pushFrom, if_neg open_, if_pos out, left]
  cases head : header ((win.take (min (pos + cur.length) win.length)).drop pos) with
  | error e =>
      apply PushEnds.refused
      apply refuses_next
      rw [out]
      exact at_.next_error (map_eq_error.mpr head)
  | ok found =>
      cases found with
      | none =>
          dsimp only
          rw [BatchBuilder.broken, left]
          split
          · rename_i past
            exact .landed b.frLeft rfl at_ (.refl holds _) ⟨at_.more past, left⟩
          · exact .landed 0 rfl at_ (.refl holds _) ⟨rfl, rfl⟩
      | some k =>
          have first : (spans kinds.length).next false
              ((win.take (min (pos + cur.length) win.length)).drop pos) =
                .ok (some (k, true, none)) := optionMap_ok.mpr ⟨k, head, rfl⟩
          have took := (spans kinds.length).next_le first
          rw [length_region within] at took
          have whole := at_.next first (Option.some_ne_none _)
          have forward := at_.forward (k := k) (by omega) (by omega)
          have drops : (unread cur ms).drop k = unread (cur.drop k) ms :=
            List.drop_append_of_le_length (by omega)
          have reads := Elements.Reads.one whole
          rw [drops, ← out] at reads
          have entering : Advances kinds rows b (unread cur ms) []
              { b with inSpan := true, frLeft := cur.length - k } (unread (cur.drop k) ms) := by
            refine ⟨reads, ?_, ?_⟩
            · rw [List.map_nil, List.append_nil]
              exact holds.framed b.buf true (cur.length - k)
            · intro fs mem
              cases mem
          exact pushes.goes_on enough rfl List.length_drop.symm forward (by omega) entering

/-- Within a span. -/
theorem Pushes.stages (pushes : Pushes kinds win rest fuel) (holds : Holds kinds b rows)
    (left : b.frLeft = cur.length) (at_ : At win rest pos cur ms) (open_ : b.frLeft ≠ 0)
    (in_ : b.inSpan = true) (enough : win.length - pos < fuel + 1) :
    PushEnds kinds rows win rest b (unread cur ms) (b.pushFrom win (fuel + 1) pos) := by
  have still : ¬ b.inSpan = false := by
    rw [in_]
    decide
  rw [BatchBuilder.pushFrom, if_neg open_, if_neg still]
  obtain ⟨refuses, stages⟩ := stageWindow_cases holds in_ left at_
  cases staged : b.stageWindow win pos with
  | error e => exact .refused (refuses e staged)
  | ok found =>
      obtain ⟨b₁, o, stop⟩ := found
      obtain ⟨le, cur₁, ms₁, at₁, left₁, buf, in₁, ⟨ts, before⟩, stops, full⟩ :=
        stages b₁ o stop staged
      match stop, stops, full with
      | .full, _, full => exact pushes.goes_on enough buf left₁ at₁ (full rfl) before
      | .needMore, more, _ => exact .landed b₁.frLeft buf at₁ before ⟨more, left₁⟩
      | .control, ⟨empty, control⟩, _ =>
          have zero : b₁.frLeft = 0 := by rw [left₁, empty, List.length_nil]
          exact .landed b₁.frLeft buf at₁ before ⟨zero, empty, control⟩
      | .straddle, _, _ => exact .landed 0 buf at₁ before ⟨rfl, left₁⟩
      | .trailer, ⟨two, room, last⟩, _ =>
          dsimp only
          rw [if_neg (by omega)]
          have forward := at₁.forward (k := 2) two room
          have drops : (unread cur₁ ms₁).drop 2 = unread (cur₁.drop 2) ms₁ :=
            List.drop_append_of_le_length two
          have closing := Advances.closing before.holds in₁ last (b₁.frLeft - 2)
          rw [drops] at closing
          refine pushes.goes_on enough buf ?_ forward (by omega) (before.trans closing)
          dsimp only
          rw [left₁, List.length_drop]

theorem pushes (kinds : List ArrowKind) (win rest : Bytes) (fuel : Nat) :
    Pushes kinds win rest fuel := by
  induction fuel with
  | zero =>
      intro b rows pos cur ms _ _ _ enough
      exact absurd enough (Nat.not_lt_zero _)
  | succ fuel ih =>
      intro b rows pos cur ms holds left at_ enough
      by_cases none_ : b.frLeft = 0
      · obtain rfl := List.length_eq_zero_iff.mp (left.symm.trans none_)
        exact ih.hops holds none_ at_ enough
      · cases in_ : b.inSpan with
        | false => exact ih.enters holds left at_ none_ in_ enough
        | true => exact ih.stages holds left at_ none_ in_ enough

end PushEnds

end Apitap.Arrow
