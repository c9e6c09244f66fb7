import Apitap.Wire.CopyOutExact
import Apitap.Wire.MyPackets

/-!
# Scanners against messages

What the bytes of messages come to at once, for the frame scanner and for a COPY, and which
bytes are refused; with it, exactly when both scanners and the packet layer deliver what they
should. A COPY that ends in the server's error ends with that error where a ReadyForQuery is
found behind it.
-/

namespace Apitap.Walsender

open Foundation
open Copy (be fromBe)

/-- A message's bytes. -/
def encode (m : Message) : Bytes := m.1 :: be 4 (m.2.length + 4) ++ m.2

/-- The scanner takes a message of this length. -/
def Fair (m : Message) : Prop := m.2.length + 4 ≤ maxFrame

/-- A header can announce a message of this length. -/
def Fits (m : Message) : Prop := m.2.length + 4 < 2 ^ 32

instance {m : Message} : Decidable (Fits m) := inferInstanceAs (Decidable (_ < _))

/-- A message within a COPY. -/
def Plain (m : Message) : Prop := Fits m ∧ known m.1 = true ∧ m.1 ≠ 90 ∧ m.1 ≠ 69

/-- The bodies of CopyData messages. -/
def payload (ms : List Message) : Bytes := ms.flatMap fun m => if m.1 = 100 then m.2 else []

variable {m : Message} {ms : List Message} {b x : Bytes}

@[simp] theorem length_encode : (encode m).length = 5 + m.2.length := by
  rw [encode, List.length_append, List.length_cons, Copy.length_be]

theorem encode_append (m : Message) (x : Bytes) :
    encode m ++ x = m.1 :: (be 4 (m.2.length + 4) ++ (m.2 ++ x)) := by
  rw [encode, List.cons_append, List.cons_append, List.append_assoc]

/-- What a header says of its message. -/
theorem header_encode (fits : Fits m) (x : Bytes) :
    (encode m ++ x).headD 0 = m.1 ∧ lengthAt (encode m ++ x) = m.2.length + 4 ∧
      (encode m ++ x).drop 5 = m.2 ++ x := by
  have four : (be 4 (m.2.length + 4)).length = 4 := Copy.length_be
  rw [encode_append]
  refine ⟨rfl, ?_, ?_⟩
  · rw [lengthAt, List.drop_one, List.tail_cons, List.take_append_of_le_length four.ge,
      List.take_of_length_le four.le, Copy.fromBe_be fits]
  · rw [List.drop_succ_cons, List.drop_append_of_le_length four.ge,
      List.drop_of_length_le four.le, List.nil_append]

theorem fair_fits (fair : Fair m) : Fits m := by
  have cap : maxFrame < 2 ^ 32 := by decide
  exact Nat.lt_of_le_of_lt fair cap

theorem item_encode (fair : Fair m) (x : Bytes) :
    frames.item (encode m ++ x) = .ok (some ((encode m).length, some m)) := by
  obtain ⟨tag, len, rest⟩ := header_encode (fair_fits fair) x
  have long : ¬ (encode m ++ x).length < 5 := by
    rw [List.length_append, length_encode]
    omega
  have within : ¬ (encode m ++ x).length < 1 + (m.2.length + 4) := by
    rw [List.length_append, length_encode]
    omega
  have total : 1 + (m.2.length + 4) = (encode m).length := by
    rw [length_encode]
    omega
  have body : (encode m).drop 5 = m.2 := by
    have whole := (header_encode (fair_fits fair) []).2.2
    rw [List.append_nil, List.append_nil] at whole
    exact whole
  have ranged : 4 ≤ m.2.length + 4 ∧ m.2.length + 4 ≤ maxFrame := ⟨Nat.le_add_left _ _, fair⟩
  change item (encode m ++ x) = _
  rw [item, if_neg long, tag, len, if_neg (not_not_intro ranged), if_neg within, total,
    List.take_left, body]

/-- The scanner's messages are those the bytes are of. -/
theorem all_messages (fair : ∀ m ∈ ms, Fair m) (x : Bytes) :
    frames.all (ms.flatMap encode ++ x) = (ms ++ (frames.all x).1, (frames.all x).2) := by
  induction ms with
  | nil => rfl
  | cons m ms ih =>
      have more := ih fun n n_mem => fair n (List.mem_cons_of_mem _ n_mem)
      have read := item_encode (fair m List.mem_cons_self) (ms.flatMap encode ++ x)
      rw [List.flatMap_cons, List.append_assoc, Format.all_some read,
        List.drop_left, more]
      rfl

/-- A COPY's message, by its tag. -/
theorem atOnce_encode (fits : Fits m) (is_known : known m.1 = true) (x : Bytes) :
    atOnce (encode m ++ x) =
      if m.1 = 90 then ([], .ready x)
      else if m.1 = 69 then ([], .failed m.2 x)
      else (if m.1 = 100 then m.2 ++ (atOnce x).1 else (atOnce x).1, (atOnce x).2) := by
  obtain ⟨tag, len, rest⟩ := header_encode fits x
  have long : 5 ≤ (encode m ++ x).length := by
    rw [List.length_append, length_encode]
    omega
  have fair : ¬ m.2.length + 4 < 4 := Nat.not_lt.mpr (Nat.le_add_left _ _)
  have within : ¬ (m.2 ++ x).length < m.2.length := by
    rw [List.length_append]
    omega
  rw [atOnce_header long, tag, len, rest, if_neg fair, if_neg (by rw [is_known]; decide),
    Nat.add_sub_cancel, inBody, if_neg within, List.drop_left, List.take_left]
  rfl

theorem payload_cons : payload (m :: ms) = (if m.1 = 100 then m.2 else []) ++ payload ms :=
  List.flatMap_cons

theorem atOnce_plain (plain : ∀ m ∈ ms, Plain m) (x : Bytes) :
    atOnce (ms.flatMap encode ++ x) = (payload ms ++ (atOnce x).1, (atOnce x).2) := by
  induction ms with
  | nil => rfl
  | cons m ms ih =>
      obtain ⟨fits, is_known, not_ready, not_error⟩ := plain m List.mem_cons_self
      have more := ih fun n n_mem => plain n (List.mem_cons_of_mem _ n_mem)
      rw [List.flatMap_cons, List.append_assoc, atOnce_encode fits is_known, if_neg not_ready,
        if_neg not_error, more, payload_cons]
      by_cases data : m.1 = 100
      · rw [if_pos data, if_pos data, List.append_assoc]
      · rw [if_neg data, if_neg data]
        rfl

/-! ## What is refused -/

/-- A whole message at the front is the bytes of that message. -/
theorem eq_encode (long : 5 ≤ b.length) (fair : 4 ≤ lengthAt b)
    (within : 1 + lengthAt b ≤ b.length) :
    b = encode (b.headD 0, (b.drop 5).take (lengthAt b - 4)) ++ b.drop (1 + lengthAt b) := by
  have body : ((b.drop 5).take (lengthAt b - 4)).length + 4 = lengthAt b := by
    rw [List.length_take, List.length_drop]
    omega
  have four : ((b.drop 1).take 4).length = 4 := by
    rw [List.length_take, List.length_drop]
    omega
  have announced : be 4 (lengthAt b) = (b.drop 1).take 4 := by
    have back := Copy.be_fromBe ((b.drop 1).take 4)
    rw [four] at back
    exact back
  have behind : b.drop (1 + lengthAt b) = (b.drop 5).drop (lengthAt b - 4) := by
    rw [List.drop_drop]
    congr 1
    omega
  rw [encode_append, body, announced, behind, List.take_append_drop]
  have rest : (b.drop 1).take 4 ++ b.drop 5 = b.drop 1 := by
    have split := List.take_append_drop 4 (b.drop 1)
    rw [List.drop_drop] at split
    exact split
  rw [rest]
  cases b with
  | nil => exact absurd long (by decide)
  | cons a b => rfl

theorem exists_message (long : 5 ≤ b.length) (fair : 4 ≤ lengthAt b)
    (within : 1 + lengthAt b ≤ b.length) : ∃ m : Message, m.1 = b.headD 0 ∧
      m.2.length + 4 = lengthAt b ∧ b = encode m ++ b.drop (1 + lengthAt b) := by
  refine ⟨_, rfl, ?_, eq_encode long fair within⟩
  rw [List.length_take, List.length_drop]
  omega

theorem lengthAt_lt (long : 5 ≤ b.length) : lengthAt b < 2 ^ 32 := by
  have four : ((b.drop 1).take 4).length = 4 := by
    rw [List.length_take, List.length_drop]
    omega
  have small := Copy.fromBe_lt ((b.drop 1).take 4)
  rw [four] at small
  exact small

/-- All messages at the front, and what is left behind them. -/
theorem exists_left (b : Bytes) : ∃ (ms : List Message) (x : Bytes), (∀ m ∈ ms, Fair m) ∧
    b = ms.flatMap encode ++ x ∧ (frames.all b).2 = (frames.all x).2 ∧
      ∀ r, frames.item x ≠ .ok (some r) := by
  induction len : b.length using Nat.strongRecOn generalizing b with
  | _ len' ih =>
      subst len
      by_cases taken : 5 ≤ b.length ∧ (4 ≤ lengthAt b ∧ lengthAt b ≤ maxFrame) ∧
          1 + lengthAt b ≤ b.length
      · obtain ⟨m, -, size, is⟩ := exists_message taken.1 taken.2.1.1 taken.2.2
        have fair : Fair m := size.le.trans taken.2.1.2
        have less : (b.drop (1 + lengthAt b)).length < b.length := by
          rw [List.length_drop]
          omega
        obtain ⟨ms, x, all_fair, rest, same, stops⟩ := ih _ less _ rfl
        refine ⟨m :: ms, x, ?_, ?_, ?_, stops⟩
        · intro n n_mem
          rcases List.mem_cons.mp n_mem with rfl | n_mem
          · exact fair
          · exact all_fair n n_mem
        · rw [List.flatMap_cons, List.append_assoc, ← rest]
          exact is
        · have read := item_encode fair (b.drop (1 + lengthAt b))
          rw [← is] at read
          rw [Format.all_some read]
          conv_rhs => rw [← same]
          conv_lhs => rw [is, List.drop_left]
      · refine ⟨[], b, fun m no => (by cases no), rfl, rfl, ?_⟩
        intro r read
        change item b = _ at read
        rw [item] at read
        split at read
        · cases read
        · split at read
          · cases read
          · split at read
            · cases read
            · exact taken ⟨by omega, by tauto, by omega⟩

/-- The scanner refuses bytes where, behind messages, a length is below 4 or past the cap. -/
theorem all_refuses_iff : (∃ e, (frames.all b).2 = .error e) ↔
    ∃ (ms : List Message) (x : Bytes), (∀ m ∈ ms, Fair m) ∧ b = ms.flatMap encode ++ x ∧
      5 ≤ x.length ∧ ¬ (4 ≤ lengthAt x ∧ lengthAt x ≤ maxFrame) := by
  constructor
  · rintro ⟨e, refused⟩
    obtain ⟨ms, x, fair, is, same, stops⟩ := exists_left b
    refine ⟨ms, x, fair, is, ?_⟩
    rw [same] at refused
    cases read : frames.item x with
    | error e' =>
        change item x = _ at read
        rw [item] at read
        split at read
        · cases read
        · rename_i long
          split at read
          · rename_i bad
            exact ⟨Nat.not_lt.mp long, bad⟩
          · split at read
            · cases read
            · cases read
    | ok found =>
        cases found with
        | none =>
            rw [Format.all_none read] at refused
            cases refused
        | some r => exact absurd read (stops r)
  · rintro ⟨ms, x, fair, rfl, long, bad⟩
    have read : frames.item x = .error (announces (lengthAt x)) := by
      change item x = _
      rw [item, if_neg (Nat.not_lt.mpr long), if_pos bad]
    rw [all_messages fair, Format.all_error read]
    exact ⟨_, rfl⟩

/-- What stops a COPY: the bytes end, a message is refused, or the message is its last. -/
inductive Stop (b : Bytes) : Prop where
  | cut (is : (atOnce b).2 = .cut)
  | refused (long : 5 ≤ b.length) (bad : lengthAt b < 4 ∨ known (b.headD 0) = false)
  | last {m : Message} {rest : Bytes} (fits : Fits m) (tag : m.1 = 90 ∨ m.1 = 69)
      (is : b = encode m ++ rest)

/-- All messages of a COPY at the front, and what stops it behind them. -/
theorem exists_stop (b : Bytes) : ∃ (ms : List Message) (x : Bytes), (∀ m ∈ ms, Plain m) ∧
    b = ms.flatMap encode ++ x ∧ Stop x := by
  induction len : b.length using Nat.strongRecOn generalizing b with
  | _ len' ih =>
      subst len
      have here (stop : Stop b) : ∃ (ms : List Message) (x : Bytes), (∀ m ∈ ms, Plain m) ∧
          b = ms.flatMap encode ++ x ∧ Stop x := ⟨[], b, fun m no => (by cases no), rfl, stop⟩
      by_cases short : b.length < 5
      · exact here (.cut (by rw [atOnce_short short]))
      · have long : 5 ≤ b.length := Nat.not_lt.mp short
        by_cases bad : lengthAt b < 4 ∨ known (b.headD 0) = false
        · exact here (.refused long bad)
        · have fair : 4 ≤ lengthAt b := Nat.not_lt.mp fun small => bad (.inl small)
          have is_known : known (b.headD 0) = true := by
            cases is : known (b.headD 0) with
            | false => exact absurd (.inr is) bad
            | true => rfl
          by_cases within : 1 + lengthAt b ≤ b.length
          · obtain ⟨m, tag, size, is⟩ := exists_message long fair within
            have fits : Fits m := by
              rw [Fits, size]
              exact lengthAt_lt long
            by_cases ends : m.1 = 90 ∨ m.1 = 69
            · exact here (.last fits ends is)
            · have less : (b.drop (1 + lengthAt b)).length < b.length := by
                rw [List.length_drop]
                omega
              have plain_m : Plain m :=
                ⟨fits, tag ▸ is_known, fun no => ends (.inl no), fun no => ends (.inr no)⟩
              obtain ⟨ms, x, plain, behind, stop⟩ := ih _ less _ rfl
              refine ⟨m :: ms, x, ?_, ?_, stop⟩
              · intro n n_mem
                rcases List.mem_cons.mp n_mem with rfl | n_mem
                · exact plain_m
                · exact plain n n_mem
              · rw [List.flatMap_cons, List.append_assoc, ← behind]
                exact is
          · have cut : (b.drop 5).length < lengthAt b - 4 := by
              rw [List.length_drop]
              omega
            apply here
            apply Stop.cut
            rw [atOnce_header long, if_neg (Nat.not_lt.mpr fair),
              if_neg (by rw [is_known]; decide), inBody, if_pos cut]

theorem atOnce_ready (fits : Fits m) (tag : m.1 = 90) (x : Bytes) :
    atOnce (encode m ++ x) = ([], .ready x) := by
  rw [atOnce_encode fits (by rw [tag]; decide), if_pos tag]

theorem atOnce_failed (fits : Fits m) (tag : m.1 = 69) (x : Bytes) :
    atOnce (encode m ++ x) = ([], .failed m.2 x) := by
  rw [atOnce_encode fits (by rw [tag]; decide), if_neg (by rw [tag]; decide), if_pos tag]

theorem atOnce_refused (long : 5 ≤ b.length)
    (bad : lengthAt b < 4 ∨ known (b.headD 0) = false) :
    ∃ e, atOnce b = ([], .refused e (b.drop 5)) := by
  rw [atOnce_header long]
  by_cases small : lengthAt b < 4
  · rw [if_pos small]
    exact ⟨_, rfl⟩
  · rw [if_neg small, if_pos (bad.resolve_left small)]
    exact ⟨_, rfl⟩

/-- A COPY is refused where, behind messages of it, a length is below 4 or a tag is unexpected. -/
theorem atOnce_refuses_iff : (∃ e rest, (atOnce b).2 = .refused e rest) ↔
    ∃ (ms : List Message) (x : Bytes), (∀ m ∈ ms, Plain m) ∧ b = ms.flatMap encode ++ x ∧
      5 ≤ x.length ∧ (lengthAt x < 4 ∨ known (x.headD 0) = false) := by
  constructor
  · rintro ⟨e, rest, refused⟩
    obtain ⟨ms, x, plain, rfl, stop⟩ := exists_stop b
    rw [atOnce_plain plain] at refused
    cases stop with
    | cut is => cases is.symm.trans refused
    | refused long bad => exact ⟨ms, x, plain, rfl, long, bad⟩
    | last fits tag is =>
        rw [is] at refused
        rcases tag with tag | tag
        · rw [atOnce_ready fits tag] at refused
          cases refused
        · rw [atOnce_failed fits tag] at refused
          cases refused
  · rintro ⟨ms, x, plain, rfl, long, bad⟩
    obtain ⟨e, is⟩ := atOnce_refused long bad
    rw [atOnce_plain plain, is]
    exact ⟨e, _, rfl⟩

/-- A COPY ends in the server's error where an ErrorResponse stands behind messages of it. -/
theorem atOnce_failed_iff {body rest : Bytes} : (atOnce b).2 = .failed body rest ↔
    ∃ ms : List Message, (∀ m ∈ ms, Plain m) ∧ Fits (69, body) ∧
      b = ms.flatMap encode ++ (encode (69, body) ++ rest) := by
  constructor
  · intro failed
    obtain ⟨ms, x, plain, rfl, stop⟩ := exists_stop b
    rw [atOnce_plain plain] at failed
    cases stop with
    | cut is => cases is.symm.trans failed
    | refused long bad =>
        obtain ⟨e, is⟩ := atOnce_refused long bad
        rw [is] at failed
        cases failed
    | @last m rest' fits tag is =>
        rw [is] at failed
        rcases tag with tag | tag
        · rw [atOnce_ready fits tag] at failed
          cases failed
        · rw [atOnce_failed fits tag] at failed
          cases failed
          obtain ⟨t, body⟩ := m
          obtain rfl : t = 69 := tag
          exact ⟨ms, plain, fits, by rw [is]⟩
  · rintro ⟨ms, plain, fits, rfl⟩
    rw [atOnce_plain plain, atOnce_failed fits rfl]

/-! ## A ReadyForQuery behind an error -/

/-- A ReadyForQuery follows, behind messages a reader takes. -/
def Settles (b : Bytes) : Prop := ∃ (ms : List Message) (z : Message) (rest : Bytes),
  (∀ m ∈ ms, Fair m ∧ m.1 ≠ 90) ∧ Fair z ∧ z.1 = 90 ∧
    b = ms.flatMap encode ++ (encode z ++ rest)

theorem readFrame_eq (b : Bytes) : readFrame b =
    if b.length < 5 then .error closedMidStream
    else if lengthAt b < 4 then .error (.transfer "walsender: bad message length")
    else if maxFrame < lengthAt b then .error (announces (lengthAt b))
    else if b.length < 1 + lengthAt b then
      .error (.transfer "walsender: stream ended inside a frame body")
    else .ok ((b.headD 0, (b.drop 5).take (lengthAt b - 4)), b.drop (1 + lengthAt b)) := rfl

theorem readFrame_encode (fair : Fair m) (x : Bytes) : readFrame (encode m ++ x) = .ok (m, x) := by
  obtain ⟨tag, len, rest⟩ := header_encode (fair_fits fair) x
  have long : ¬ (encode m ++ x).length < 5 := by
    rw [List.length_append, length_encode]
    omega
  have within : ¬ (encode m ++ x).length < 1 + (m.2.length + 4) := by
    rw [List.length_append, length_encode]
    omega
  have total : 1 + (m.2.length + 4) = (encode m).length := by
    rw [length_encode]
    omega
  rw [readFrame_eq, if_neg long]
  rw [tag, len, rest, if_neg (Nat.not_lt.mpr (Nat.le_add_left _ _)),
    if_neg (Nat.not_lt.mpr fair), if_neg within, Nat.add_sub_cancel, List.take_left, total,
    List.drop_left]

/-- What is read is a message's bytes. -/
theorem eq_of_readFrame (read : readFrame b = .ok (m, x)) : Fair m ∧ b = encode m ++ x := by
  rw [readFrame_eq] at read
  split at read
  · cases read
  · rename_i long
    have long : 5 ≤ b.length := Nat.not_lt.mp long
    split at read
    · cases read
    · split at read
      · cases read
      · split at read
        · cases read
        · cases read
          have is := eq_encode long (by omega) (by omega)
          refine ⟨?_, is⟩
          rw [Fair, List.length_take, List.length_drop]
          omega

theorem drainToReady_iff {fuel : Nat} (enough : b.length < fuel) :
    (∃ behind, drainToReady fuel b = .ok behind) ↔ Settles b := by
  induction fuel generalizing b with
  | zero => exact absurd enough (Nat.not_lt_zero _)
  | succ fuel ih =>
      rw [drainToReady]
      constructor
      · rintro ⟨behind, drained⟩
        obtain ⟨⟨m, x⟩, read, more⟩ := bind_eq_ok.mp drained
        obtain ⟨fair, is⟩ := eq_of_readFrame read
        dsimp only at more
        by_cases ready : m.1 = 90
        · exact ⟨[], m, x, fun n no => (by cases no), fair, ready, is⟩
        · rw [if_neg ready] at more
          have less : x.length < fuel := by
            rw [is, List.length_append, length_encode] at enough
            omega
          obtain ⟨ms, z, rest, fine, fair_z, tag, rfl⟩ := (ih less).mp ⟨behind, more⟩
          refine ⟨m :: ms, z, rest, ?_, fair_z, tag, ?_⟩
          · intro n n_mem
            rcases List.mem_cons.mp n_mem with rfl | n_mem
            · exact ⟨fair, ready⟩
            · exact fine n n_mem
          · rw [is, List.flatMap_cons, List.append_assoc]
      · rintro ⟨ms, z, rest, fine, fair_z, tag, rfl⟩
        cases ms with
        | nil =>
            refine ⟨rest, ?_⟩
            change (readFrame (encode z ++ rest)).bind _ = _
            rw [readFrame_encode fair_z]
            exact if_pos tag
        | cons m ms =>
            obtain ⟨fair, other⟩ := fine m List.mem_cons_self
            have shape : (m :: ms).flatMap encode ++ (encode z ++ rest) =
                encode m ++ (ms.flatMap encode ++ (encode z ++ rest)) := by
              rw [List.flatMap_cons, List.append_assoc]
            rw [shape] at enough ⊢
            have less : (ms.flatMap encode ++ (encode z ++ rest)).length < fuel := by
              rw [List.length_append, length_encode] at enough
              omega
            obtain ⟨behind, more⟩ := (ih less).mpr
              ⟨ms, z, rest, fun n n_mem => fine n (List.mem_cons_of_mem _ n_mem), fair_z, tag, rfl⟩
            refine ⟨behind, ?_⟩
            rw [readFrame_encode fair]
            exact (if_neg other).trans more

/-! ## Whose error it is -/

/-- The text of a transfer error. -/
def textOf : Error → List Char
  | .transfer text => text.toList
  | .invalidInput text => text.toList
  | .locked text => text.toList

theorem parseError_text (lossy : Lossy) (body : Bytes) :
    (textOf (parseError lossy body)).take 13 = "walsender: se".toList := by
  rw [parseError]
  generalize errorFields lossy body.length body ("", "") = found
  obtain ⟨code, text⟩ := found
  simp [textOf]

theorem closed_text : (textOf closedMidStream).take 13 ≠ "walsender: se".toList := by
  rw [closedMidStream, textOf, String.append_assoc, String.append_assoc, String.append_assoc,
    String.toList_append, List.take_append_of_le_length (by decide)]
  decide

theorem readFrame_text {e : Error} (refused : readFrame b = .error e) :
    (textOf e).take 13 ≠ "walsender: se".toList := by
  rw [readFrame_eq] at refused
  split at refused
  · cases refused
    exact closed_text
  · split at refused
    · cases refused
      decide
    · split at refused
      · cases refused
        simp [textOf, announces]
      · split at refused
        · cases refused
          decide
        · cases refused

theorem drainToReady_text {fuel : Nat} {e : Error} (refused : drainToReady fuel b = .error e) :
    (textOf e).take 13 ≠ "walsender: se".toList := by
  induction fuel generalizing b with
  | zero =>
      cases refused
      exact closed_text
  | succ fuel ih =>
      rw [drainToReady] at refused
      cases read : readFrame b with
      | error e' =>
          rw [read] at refused
          cases refused
          exact readFrame_text read
      | ok r =>
          rw [read] at refused
          change (if r.1.1 = 90 then Except.ok r.2 else drainToReady fuel r.2) = _ at refused
          split at refused
          · cases refused
          · exact ih refused

/-- The server's error is given where a ReadyForQuery follows, and the drain's where not. -/
theorem drained_iff {lossy : Lossy} {body rest : Bytes} :
    CopyOut.drained (parseError lossy body) rest = parseError lossy body ↔ Settles rest := by
  rw [← drainToReady_iff (Nat.lt_succ_self rest.length), CopyOut.drained]
  constructor
  · intro same
    cases drains : drainToReady (rest.length + 1) rest with
    | ok behind => exact ⟨behind, rfl⟩
    | error e =>
        rw [drains] at same
        have other := drainToReady_text drains
        rw [show e = parseError lossy body from same] at other
        exact absurd (parseError_text lossy body) other
  · rintro ⟨behind, drains⟩
    rw [drains]

/-! ## The scanners and the packets -/

/-- How a COPY's calls should end, with the bytes they leave. -/
def Ends (lossy : Lossy) : Ending → Except Error Bool → Bytes → Prop
  | .ready rest, result, left => result = .ok false ∧ left = rest
  | .failed body _, result, _ => result = .error (parseError lossy body)
  | .refused _ _, result, _ => ∃ e, result = .error e
  | .cut, result, _ => ∃ e, result = .error e

/-- The scanners agree with the bytes `b` taken at once, and the packet layer with a payload. -/
structure Agree (lossy : Lossy) (b : Bytes) : Prop where
  scanner {win : Bytes} {refills : List Refill} {fuel : Nat} (all : win ++ bytesOf refills = b)
    (enough : turns win refills < fuel) :
    scan fuel win refills = ((frames.all b).1, some (ending (frames.all b).2))
  messages {ms : List Message} {x : Bytes} (fair : ∀ m ∈ ms, Fair m)
    (is : b = ms.flatMap encode ++ x) :
    frames.all b = (ms ++ (frames.all x).1, (frames.all x).2)
  refuses : (∃ e, (frames.all b).2 = .error e) ↔
    ∃ (ms : List Message) (x : Bytes), (∀ m ∈ ms, Fair m) ∧ b = ms.flatMap encode ++ x ∧
      5 ≤ x.length ∧ ¬ (4 ≤ lengthAt x ∧ lengthAt x ≤ maxFrame)
  copy (rd : Socket) (targets : Nat → Nat) {fuel : Nat} (all : rd.bytes = b)
    (enough : b.length + 1 < fuel) : ∃ result last,
      CopyOut.session lossy targets fuel 0 (.start rd) = ((atOnce b).1, some result, last) ∧
        Ends lossy (atOnce b).2 result last.rd.bytes
  data {ms : List Message} {x : Bytes} (plain : ∀ m ∈ ms, Plain m)
    (is : b = ms.flatMap encode ++ x) :
    atOnce b = (payload ms ++ (atOnce x).1, (atOnce x).2)
  ready {m : Message} {x : Bytes} (fits : Fits m) (tag : m.1 = 90) (is : b = encode m ++ x) :
    atOnce b = ([], .ready x)
  failed {m : Message} {x : Bytes} (fits : Fits m) (tag : m.1 = 69) (is : b = encode m ++ x) :
    atOnce b = ([], .failed m.2 x)
  copyRefuses : (∃ e rest, (atOnce b).2 = .refused e rest) ↔
    ∃ (ms : List Message) (x : Bytes), (∀ m ∈ ms, Plain m) ∧ b = ms.flatMap encode ++ x ∧
      5 ≤ x.length ∧ (lengthAt x < 4 ∨ known (x.headD 0) = false)
  packets (seq : UInt8) {payload : Bytes} (x : Bytes)
    (fits : payload.length ≤ MyWire.maxPayload) :
    MyWire.receive seq ((MyWire.emit seq payload).1.flatten ++ x) =
      .ok (payload, seq + UInt8.ofNat (MyWire.emit seq payload).1.length, x)

/-- A COPY from its start, in any windows and for any targets. -/
theorem session_start (lossy : Lossy) (rd : Socket) (targets : Nat → Nat) {fuel : Nat}
    (all : rd.bytes = b) (enough : b.length + 1 < fuel) : ∃ last,
      CopyOut.session lossy targets fuel 0 (.start rd) =
        ((atOnce b).1, some (CopyOut.verdict lossy (atOnce b).2), last) ∧
      ∀ rest, (atOnce b).2 = .ready rest → last.rd.bytes = rest := by
  have tells : (CopyOut.start rd).tells = atOnce b := by
    rw [CopyOut.tells, resume, ← all]
    exact if_pos rfl
  have mid : Mid (CopyOut.start rd).head (CopyOut.start rd).tag (CopyOut.start rd).left
      (CopyOut.start rd).err := ⟨Nat.zero_lt_succ 4, fun _ => rfl, fun _ => rfl⟩
  rw [← tells]
  apply CopyOut.session_ran _ mid rfl
  change rd.bytes.length + 1 < fuel
  rw [all]
  exact enough

/-- Exactly when a COPY's calls end as they should. -/
theorem verdict_iff {lossy : Lossy} {ending : Ending} {left : Bytes}
    (behind : ∀ rest, ending = .ready rest → left = rest) :
    Ends lossy ending (CopyOut.verdict lossy ending) left ↔
      ∀ body rest, ending = .failed body rest → Settles rest := by
  cases ending with
  | ready rest => exact ⟨fun _ body rest is => (by cases is), fun _ => ⟨rfl, behind rest rfl⟩⟩
  | cut => exact ⟨fun _ body rest is => (by cases is), fun _ => ⟨_, rfl⟩⟩
  | refused e rest => exact ⟨fun _ body rest is => (by cases is), fun _ => ⟨_, rfl⟩⟩
  | failed body rest =>
      constructor
      · intro ends body' rest' is
        cases is
        exact drained_iff.mp (Except.error.inj ends)
      · intro settles
        exact congrArg Except.error (drained_iff.mpr (settles body rest rfl))

theorem Agree.settles {lossy : Lossy} {body rest : Bytes} (agree : Agree lossy b)
    (failed : (atOnce b).2 = .failed body rest) : Settles rest := by
  have enough : b.length + 1 < b.length + 2 := Nat.lt_succ_self _
  have at_start : (⟨b, []⟩ : Socket).bytes = b := List.append_nil b
  obtain ⟨result, last, runs, ends⟩ := agree.copy ⟨b, []⟩ (fun _ => 0) at_start enough
  obtain ⟨last', runs', behind⟩ := session_start lossy ⟨b, []⟩ (fun _ => 0) at_start enough
  rw [runs] at runs'
  injection runs' with _ found
  injection found with result_is last_is
  cases result_is
  subst last_is
  exact (verdict_iff behind).mp ends body rest failed

/-- The scanners agree with the stream exactly when behind a COPY's ErrorResponse a
ReadyForQuery can be read. -/
theorem scanners_agree_iff (lossy : Lossy) (b : Bytes) : Agree lossy b ↔
    ∀ (ms : List Message) (body rest : Bytes), (∀ m ∈ ms, Plain m) → Fits (69, body) →
      b = ms.flatMap encode ++ (encode (69, body) ++ rest) → Settles rest := by
  constructor
  · intro agree ms body rest plain fits is
    exact agree.settles (atOnce_failed_iff.mpr ⟨ms, plain, fits, is⟩)
  · intro settles
    refine ⟨?_, ?_, all_refuses_iff, ?_, ?_, ?_, ?_, atOnce_refuses_iff, ?_⟩
    · intro win refills fuel all enough
      rw [scan_eq enough, all]
    · intro ms x fair is
      rw [is, all_messages fair]
    · intro rd targets fuel all enough
      obtain ⟨last, runs, behind⟩ := session_start lossy rd targets all enough
      refine ⟨_, last, runs, (verdict_iff behind).mpr ?_⟩
      intro body rest failed
      obtain ⟨ms, plain, fits, is⟩ := atOnce_failed_iff.mp failed
      exact settles ms body rest plain fits is
    · intro ms x plain is
      rw [is, atOnce_plain plain]
    · intro m x fits tag is
      rw [is, atOnce_ready fits tag]
    · intro m x fits tag is
      rw [is, atOnce_failed fits tag]
    · intro seq payload x fits
      obtain ⟨reads, -, next⟩ := MyWire.receive_emit seq payload x fits
      rw [reads, next]

/-- The bytes of an ASCII text. -/
def ascii : Lossy := fun b => String.ofList (b.map fun c => Char.ofNat c.toNat)

/-- An error's fields: its severity, its code. -/
def fatal : Bytes := [83, 70, 65, 84, 65, 76, 0, 67, 53, 55, 80, 48, 49, 0, 0]

/-- A row, and the server's last word before it closes the connection. -/
def terminated : Bytes := encode (100, [49, 10]) ++ encode (69, fatal)

/-- The error of a server that closes the connection behind it is not given. -/
theorem terminated_not_told : ¬ Agree ascii terminated := by
  intro agree
  have failed : (atOnce terminated).2 = .failed fatal [] := by
    rw [atOnce_failed_iff]
    refine ⟨[(100, [49, 10])], ?_, by decide, ?_⟩
    · intro m m_mem
      obtain rfl := List.mem_singleton.mp m_mem
      exact ⟨by decide, rfl, by decide, by decide⟩
    · rw [terminated, List.append_nil, List.flatMap_singleton]
  obtain ⟨ms, z, rest, -, -, -, is⟩ := agree.settles failed
  have length := congrArg List.length is
  rw [List.length_append, List.length_append, length_encode, List.length_nil] at length
  omega

end Apitap.Walsender
