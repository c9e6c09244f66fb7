import Apitap.Foundation.Windows
import Apitap.Wire.CopyStream

/-!
# The replication stream's frames

A backend message is a tag, a length of four bytes that counts itself, and a body. The scanner
hands out whole messages from the front of its window and refills it when there is none; a
length the protocol does not know is refused before its body is waited for.
-/

namespace Apitap.Walsender

open Foundation
open Copy (fromBe)

/-- A tag and a body. -/
abbrev Message := UInt8 × Bytes

/-- What one read of a socket gives. -/
abbrev Chunk := {c : Bytes // c ≠ []}

def maxFrame : Nat := 2 ^ 30

def announces (len : Nat) : Error :=
  .transfer ("walsender: message announces " ++ toString len ++ " bytes, past the 1 GB " ++
    "protocol limit — the peer on this socket is not answering the Postgres frontend protocol")

def streamEnded : Error := .transfer "walsender: stream ended unexpectedly"

/-- One whole frame if the window holds one: the message, and what the window is left with. -/
def step (win : Bytes) : Except Error (Option (Message × Bytes)) :=
  if win.length < 5 then .ok none
  else
    let len := fromBe ((win.drop 1).take 4)
    if ¬ (4 ≤ len ∧ len ≤ maxFrame) then .error (announces len)
    else
      let total := 1 + len
      if win.length < total then .ok none
      else .ok (some ((win.headD 0, (win.take total).drop 5), win.drop total))

/-- What a refill comes to: bytes, or a ping interval without any. -/
inductive Refill where
  | bytes (c : Chunk)
  | quiet

def Refill.read : Refill → Bytes
  | .bytes c => c.1
  | .quiet => []

/-- What a call for the next frame comes to. -/
inductive Next where
  | frame (m : Message) (win : Bytes) (refills : List Refill)
  | quiet (win : Bytes) (refills : List Refill)
  | failed (e : Error)

/-- The next raw frame, refilling as needed; the socket ends behind the refills. -/
def nextRaw (win : Bytes) (refills : List Refill) : Next :=
  match step win with
  | .error e => .failed e
  | .ok (some (m, win)) => .frame m win refills
  | .ok none =>
      match refills with
      | [] => .failed streamEnded
      | .quiet :: rest => .quiet win rest
      | .bytes c :: rest => nextRaw (win ++ c.1) rest

/-- Calls until one fails: the messages they gave, and the failure. -/
def scan : Nat → Bytes → List Refill → List Message × Option Error
  | 0, _, _ => ([], none)
  | fuel + 1, win, refills =>
      match nextRaw win refills with
      | .failed e => ([], some e)
      | .quiet win refills => scan fuel win refills
      | .frame m win refills =>
          let rest := scan fuel win refills
          (m :: rest.1, rest.2)

/-! ## The stream at once -/

/-- The length a header announces. -/
def lengthAt (b : Bytes) : Nat := fromBe ((b.drop 1).take 4)

/-- The message at the front, by how long it is. -/
def item (b : Bytes) : Except Error (Option (Nat × Option Message)) :=
  if b.length < 5 then .ok none
  else if ¬ (4 ≤ lengthAt b ∧ lengthAt b ≤ maxFrame) then .error (announces (lengthAt b))
  else if b.length < 1 + lengthAt b then .ok none
  else .ok (some (1 + lengthAt b, some (b.headD 0, (b.take (1 + lengthAt b)).drop 5)))

theorem step_eq (win : Bytes) : step win = (item win).map fun found => found.bind fun r =>
    r.2.map fun m => (m, win.drop r.1) := by
  rw [step, item]
  by_cases short : win.length < 5
  · rw [if_pos short, if_pos short]
    rfl
  · rw [if_neg short, if_neg short]
    change (if ¬ (4 ≤ lengthAt win ∧ lengthAt win ≤ maxFrame) then _ else
      if win.length < 1 + lengthAt win then _ else _) = _
    split
    · rfl
    · split
      · rfl
      · rfl

variable {b x : Bytes} {n : Nat} {r : Option Message} {e : Error}

theorem lengthAt_append (long : 5 ≤ b.length) : lengthAt (b ++ x) = lengthAt b := by
  have within : 4 ≤ (b.drop 1).length := by
    rw [List.length_drop]
    omega
  rw [lengthAt, List.drop_append_of_le_length (by omega), List.take_append_of_le_length within]
  rfl

theorem headD_append (long : 5 ≤ b.length) : (b ++ x).headD 0 = b.headD 0 := by
  cases b with
  | nil => cases long
  | cons a b => rfl

theorem item_le (read : item b = .ok (some (n, r))) : 0 < n ∧ n ≤ b.length := by
  rw [item] at read
  split at read
  · cases read
  · split at read
    · cases read
    · split at read
      · cases read
      · cases read
        omega

theorem item_append (x : Bytes) (read : item b = .ok (some (n, r))) :
    item (b ++ x) = .ok (some (n, r)) := by
  rw [item] at read
  split at read
  · cases read
  · rename_i long
    have header : 5 ≤ b.length := Nat.not_lt.mp long
    split at read
    · cases read
    · rename_i fair
      split at read
      · cases read
      · rename_i whole
        have longer : ¬ (b ++ x).length < 5 := by
          rw [List.length_append]
          omega
        have covered : ¬ (b ++ x).length < 1 + lengthAt b := by
          rw [List.length_append]
          omega
        rw [item, if_neg longer, lengthAt_append header, if_neg fair, if_neg covered,
          headD_append header, List.take_append_of_le_length (by omega)]
        exact read

theorem item_error (x : Bytes) (read : item b = .error e) : item (b ++ x) = .error e := by
  rw [item] at read
  split at read
  · cases read
  · rename_i long
    have header : 5 ≤ b.length := Nat.not_lt.mp long
    split at read
    · rename_i unfair
      have longer : ¬ (b ++ x).length < 5 := by
        rw [List.length_append]
        omega
      rw [item, if_neg longer, lengthAt_append header, if_pos unfair]
      exact read
    · split at read
      · cases read
      · cases read

/-- The header of no bytes. -/
def noHeader (b : Bytes) : Except Error (Option Nat) := if b = [] then .ok none else .ok (some 0)

/-- Messages as a format; none of them ends the stream. -/
def frames : Format Error UInt8 Message where
  header := noHeader
  item := item
  header_nil := rfl
  header_le {b n} is := by
    rw [noHeader] at is
    split at is
    · cases is
    · cases is
      exact Nat.zero_le _
  header_append {b n} x is := by
    rw [noHeader] at is
    split at is
    · cases is
    · rename_i some
      rw [noHeader, if_neg (by simp [some])]
      exact is
  header_error {b e} x is := by
    rw [noHeader] at is
    split at is
    · cases is
    · cases is
  item_nil := rfl
  item_le := item_le
  item_append := item_append
  item_error := item_error

/-- All bytes a socket gives. -/
def bytesOf (refills : List Refill) : Bytes := refills.flatMap Refill.read

/-- How many calls there can be. -/
def turns (win : Bytes) (refills : List Refill) : Nat :=
  (win ++ bytesOf refills).length + refills.length

/-- Why the calls end: a message is refused, or the socket ends. -/
def ending : Except Error (Bytes × Bool) → Error
  | .error e => e
  | .ok _ => streamEnded

/-- What a call comes to, against all the bytes there are. -/
def Answers (win : Bytes) (refills : List Refill) : Next → Prop
  | .frame m win' refills' => turns win' refills' < turns win refills ∧
      frames.all (win ++ bytesOf refills) =
        (m :: (frames.all (win' ++ bytesOf refills')).1, (frames.all (win' ++ bytesOf refills')).2)
  | .quiet win' refills' => turns win' refills' < turns win refills ∧
      win' ++ bytesOf refills' = win ++ bytesOf refills
  | .failed e => (frames.all (win ++ bytesOf refills)).1 = [] ∧
      e = ending (frames.all (win ++ bytesOf refills)).2

/-- What a step says of the window it says of all bytes. -/
theorem step_cases (win x : Bytes) :
    (∃ e, step win = .error e ∧ frames.all (win ++ x) = ([], .error e)) ∨
    (∃ m rest, step win = .ok (some (m, rest)) ∧ rest.length < win.length ∧
      frames.all (win ++ x) = (m :: (frames.all (rest ++ x)).1, (frames.all (rest ++ x)).2)) ∨
    (step win = .ok none ∧ frames.item win = .ok none) := by
  rw [step_eq]
  cases read : item win with
  | error e => exact .inl ⟨e, rfl, Format.all_error (item_error x read)⟩
  | ok found =>
      rcases found with _ | ⟨n, _ | m⟩
      · exact .inr (.inr ⟨rfl, read⟩)
      · rw [item] at read
        split at read
        · cases read
        · split at read
          · cases read
          · split at read
            · cases read
            · cases read
      · have took := item_le read
        have taken := Format.all_some (F := frames) (item_append x read)
        rw [List.drop_append_of_le_length took.2] at taken
        refine .inr (.inl ⟨m, win.drop n, rfl, ?_, taken⟩)
        rw [List.length_drop]
        omega

theorem turns_lt {win rest : Bytes} (less : rest.length < win.length) (refills : List Refill) :
    turns rest refills < turns win refills := by
  rw [turns, turns, List.length_append, List.length_append]
  omega

theorem bytesOf_cons (r : Refill) (rest : List Refill) :
    bytesOf (r :: rest) = r.read ++ bytesOf rest := List.flatMap_cons

theorem nextRaw_answers (win : Bytes) (refills : List Refill) :
    Answers win refills (nextRaw win refills) := by
  induction refills generalizing win with
  | nil =>
      rw [nextRaw]
      rcases step_cases win (bytesOf []) with
        ⟨e, read, all⟩ | ⟨m, rest, read, less, all⟩ | ⟨read, none⟩
      · rw [read]
        refine ⟨?_, ?_⟩
        · rw [all]
        · rw [all, ending]
      · rw [read]
        exact ⟨turns_lt less [], all⟩
      · have all := Format.all_none (F := frames) none
        have nothing : bytesOf [] = [] := rfl
        rw [read]
        refine ⟨?_, ?_⟩
        · rw [nothing, List.append_nil, all]
        · rw [nothing, List.append_nil, all, ending]
  | cons r rest ih =>
      rw [nextRaw.eq_def]
      rcases step_cases win (bytesOf (r :: rest)) with
        ⟨e, read, all⟩ | ⟨m, left, read, less, all⟩ | ⟨read, -⟩
      · rw [read]
        refine ⟨?_, ?_⟩
        · rw [all]
        · rw [all, ending]
      · rw [read]
        exact ⟨turns_lt less _, all⟩
      · rw [read]
        have fewer (c : Bytes) : turns (win ++ c) rest < turns win (r :: rest) ↔
            c.length ≤ r.read.length := by
          rw [turns, turns, bytesOf_cons]
          simp only [List.length_append, List.length_cons]
          omega
        cases r with
        | quiet =>
            refine ⟨?_, ?_⟩
            · have less := (fewer []).mpr (Nat.zero_le _)
              rw [List.append_nil] at less
              exact less
            · rw [bytesOf_cons]
              rfl
        | bytes c =>
            have less := (fewer c.1).mpr (Nat.le_refl _)
            have same : win ++ bytesOf (.bytes c :: rest) = win ++ c.1 ++ bytesOf rest := by
              rw [bytesOf_cons, List.append_assoc]
              rfl
            have answers := ih (win ++ c.1)
            show Answers win _ (nextRaw (win ++ c.1) rest)
            cases is : nextRaw (win ++ c.1) rest with
            | frame m win' refills' =>
                rw [is] at answers
                exact ⟨answers.1.trans less, same ▸ answers.2⟩
            | quiet win' refills' =>
                rw [is] at answers
                exact ⟨answers.1.trans less, answers.2.trans same.symm⟩
            | failed e =>
                rw [is, Answers, ← same] at answers
                exact answers

/-- Calls until one fails give the messages of all bytes at once, and fail as they do. -/
theorem scan_eq {fuel : Nat} {win : Bytes} {refills : List Refill}
    (enough : turns win refills < fuel) :
    scan fuel win refills = ((frames.all (win ++ bytesOf refills)).1,
      some (ending (frames.all (win ++ bytesOf refills)).2)) := by
  induction fuel generalizing win refills with
  | zero => exact absurd enough (Nat.not_lt_zero _)
  | succ fuel ih =>
      have answers := nextRaw_answers win refills
      rw [scan]
      cases is : nextRaw win refills with
      | failed e =>
          rw [is] at answers
          rw [answers.1, answers.2]
      | quiet win' refills' =>
          rw [is] at answers
          obtain ⟨less, same⟩ := answers
          rw [← same]
          exact ih (by omega)
      | frame m win' refills' =>
          rw [is] at answers
          obtain ⟨less, all⟩ := answers
          dsimp only
          rw [all, ih (by omega : turns win' refills' < fuel)]

end Apitap.Walsender
