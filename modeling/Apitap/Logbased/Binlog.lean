import Apitap.Logbased.DrainBinlog
import Apitap.Logbased.DrainPartition

/-!
# The server's binlog

What a MySQL or MariaDB server writes to its binlog files, and what it says was
committed. An entry ends at a true offset of its file; the header a replica sees has the
low 32 bits of it. A rows event follows the table maps of its own statement, and a
group's changes count once its commit marker is written.
-/

namespace Apitap

namespace Mysource

/-- A number in decimal. -/
def decimal (i : Nat) : Bytes := (Nat.toDigits 10 i).map fun c => UInt8.ofNat c.toNat

/-- A file ordinal, six digits or more. -/
def ordinal (i : Nat) : Bytes := List.replicate (6 - (decimal i).length) 48 ++ decimal i

/-- The name of a binlog file. -/
def fileName (stem : Bytes) (i : Nat) : Bytes := stem ++ 46 :: ordinal i

example : fileName [98] 7 = [98, 46, 48, 48, 48, 48, 48, 55] := by decide

section fileName

private theorem digit_byte {d : Nat} (lt : d < 10) :
    UInt8.ofNat (Nat.digitChar d).toNat = UInt8.ofNat (48 + d) := by
  revert d
  decide

private theorem byte_digit {d : Nat} (lt : d < 10) :
    48 ≤ UInt8.ofNat (48 + d) ∧ UInt8.ofNat (48 + d) ≤ 57 ∧
      (UInt8.ofNat (48 + d)).toNat - 48 = d := by
  revert d
  decide

theorem decimal_eq (i : Nat) :
    decimal i = if i < 10 then [UInt8.ofNat (48 + i)]
      else decimal (i / 10) ++ [UInt8.ofNat (48 + i % 10)] := by
  rw [decimal, Nat.toDigits_eq_if (by omega)]
  split
  · rename_i lt
    rw [List.map_singleton, digit_byte lt]
  · rw [List.map_append, List.map_singleton, digit_byte (Nat.mod_lt i (by omega)), decimal]

theorem decimal_digits (i : Nat) : ∀ b ∈ decimal i, 48 ≤ b ∧ b ≤ 57 := by
  induction i using Nat.strongRecOn with
  | ind i ih =>
      intro b mem
      rw [decimal_eq] at mem
      split at mem
      · rename_i lt
        cases List.mem_singleton.mp mem
        exact ⟨(byte_digit lt).1, (byte_digit lt).2.1⟩
      · cases List.mem_append.mp mem with
        | inl mem => exact ih (i / 10) (by omega) b mem
        | inr mem =>
            have lt : i % 10 < 10 := Nat.mod_lt i (by omega)
            cases List.mem_singleton.mp mem
            exact ⟨(byte_digit lt).1, (byte_digit lt).2.1⟩

theorem ordinal_digits (i : Nat) : ∀ b ∈ ordinal i, 48 ≤ b ∧ b ≤ 57 := by
  intro b mem
  cases List.mem_append.mp mem with
  | inl mem =>
      rw [List.eq_of_mem_replicate mem]
      decide
  | inr mem => exact decimal_digits i b mem

private abbrev readDigit (acc : Option Nat) (b : UInt8) : Option Nat :=
  acc.bind fun n => if 48 ≤ b ∧ b ≤ 57 then some (n * 10 + (b.toNat - 48)) else none

private theorem readDigit_byte {d n : Nat} (lt : d < 10) :
    readDigit (some n) (UInt8.ofNat (48 + d)) = some (n * 10 + d) := by
  obtain ⟨low, high, value⟩ := byte_digit lt
  rw [readDigit, Option.bind_some, if_pos ⟨low, high⟩, value]

private theorem foldl_decimal (i : Nat) : (decimal i).foldl readDigit (some 0) = some i := by
  induction i using Nat.strongRecOn with
  | ind i ih =>
      rw [decimal_eq]
      split
      · rename_i lt
        rw [List.foldl_cons, readDigit_byte lt, List.foldl_nil, Nat.zero_mul, Nat.zero_add]
      · rw [List.foldl_append, ih (i / 10) (by omega), List.foldl_cons,
          readDigit_byte (Nat.mod_lt i (by omega)), List.foldl_nil, Option.some.injEq]
        omega

theorem parseDigits_ordinal (i : Nat) : parseDigits (ordinal i) = some i := by
  have nonempty : (ordinal i).isEmpty = false := by
    rw [ordinal, List.isEmpty_eq_false_iff, Ne, List.append_eq_nil_iff, decimal_eq]
    rintro ⟨-, empty⟩
    split at empty
    · nomatch empty
    · exact List.append_ne_nil_of_right_ne_nil _ (List.cons_ne_nil _ _) empty
  have padding (n : Nat) : (List.replicate n (48 : UInt8)).foldl readDigit (some 0) = some 0 := by
    induction n with
    | zero => rfl
    | succ n ih =>
        rw [List.replicate_succ, List.foldl_cons]
        exact ih
  rw [parseDigits, nonempty, if_neg (by decide)]
  change (ordinal i).foldl readDigit (some 0) = some i
  rw [ordinal, List.foldl_append, padding, foldl_decimal]

/-- A file's name says its ordinal. -/
theorem parseU64_fileName (stem : Bytes) {i : Nat} (lt : i < 2 ^ 64) :
    parseU64 (lastPart (fileName stem i)) = some i := by
  have undotted : ∀ b ∈ (ordinal i).reverse, decide (b ≠ 46) = true := by
    intro b mem
    rw [decide_eq_true_eq]
    rintro rfl
    exact absurd (ordinal_digits i _ (List.mem_reverse.mp mem)).1 (by decide)
  have part : lastPart (fileName stem i) = ordinal i := by
    rw [lastPart, fileName, List.reverse_append, List.reverse_cons, List.append_assoc,
      List.takeWhile_append_of_pos undotted]
    simp
  have value : (parseDigits (ordinal i)).bind (fun n => if n < 2 ^ 64 then some n else none) =
      some i := by
    rw [parseDigits_ordinal, Option.bind_some, if_pos lt]
  rw [part, parseU64]
  · exact value
  · intro digits starts
    have plus := ordinal_digits i 43 (starts ▸ List.mem_cons_self)
    exact absurd plus.1 (by decide)

/-- A coordinate in a named file is packed as its ordinal and its position. -/
theorem packPos_fileName (stem : Bytes) {i : Nat} (lt : i < 2 ^ 32) (pos : Nat) :
    packPos (fileName stem i) pos = i * 2 ^ 32 + pos := by
  rw [packPos, parseU64_fileName stem (by omega), Option.getD_some, Nat.mod_eq_of_lt (by omega)]

end fileName

/-- What a log holds: an event, and where in which file it ends. -/
structure Entry where
  file : Nat
  stop : Nat
  body : BinlogEvent
deriving DecidableEq, Repr

def Entry.rotates (e : Entry) : Bool :=
  match e.body with
  | .rotate _ => true
  | _ => false

/-- The entry as a replica receives it. -/
def Entry.event (e : Entry) : Event := ⟨e.stop % 2 ^ 32, e.body⟩

/-- A committed group: its changes to tracked tables, where its commit marker ends, and
how many DDLs came before. -/
structure Group where
  ops : List (String × StreamOp)
  file : Nat
  stop : Nat
  era : Nat
deriving DecidableEq, Repr

/-- The group as a window lands it. -/
def Group.tx (g : Group) : Tx := ⟨g.ops, g.file * 2 ^ 32 + g.stop⟩

/-- What a server follows of its own log, up to a point in it. -/
structure Master where
  file : Nat
  /-- The end of the last event. -/
  pos : Nat
  /-- The tables the statement being written announced, the latest first. -/
  bound : List (Nat × String)
  /-- The group being written: its changes to tracked tables so far. -/
  «open» : Option (List (String × StreamOp))
  committed : List Group
  ddls : Nat
deriving DecidableEq, Repr

namespace Master

/-- A log that begins at a coordinate. -/
def start (file pos : Nat) : Master := ⟨file, pos, [], none, [], 0⟩

/-- What the open group changed in tracked tables so far. -/
def pending (m : Master) : List (String × StreamOp) := m.open.getD []

/-- A commit marker: what the group changed in tracked tables is committed. -/
def land (m : Master) (ops : List (String × StreamOp)) (stop : Nat) : Master :=
  if ops = [] then m
  else { m with committed := m.committed ++ [⟨ops, m.file, stop, m.ddls⟩] }

/-- The group a commit marker ends. -/
def close (m : Master) : Option Master :=
  m.open.map fun ops => { m.land ops m.pos with «open» := none }

/-- The change a truncate of a tracked table is. -/
def truncated [Unicode] (tracked : List (String × List String)) (db head : Text) :
    List (String × StreamOp) :=
  match truncates tracked db head with
  | .table q => [(q, .truncate)]
  | _ => []

/-- A DDL commits the group it stands in. -/
def ddl [Unicode] (tracked : List (String × List String)) (m : Master) (db head : Text) :
    Master :=
  { m.land (m.pending ++ truncated tracked db head) m.pos with
    «open» := m.open.map fun _ => []
    ddls := m.ddls + 1 }

/-- A QUERY event. Which rows a rollback to a savepoint undid is not in the log. -/
def query [Unicode] (tracked : List (String × List String)) (m : Master) (db sql : Text) :
    Option Master :=
  match queryVerb (trimStart sql) with
  | .begin => some { m with «open» := some [] }
  | .commit => m.close
  | .rollback => m.open.map fun _ => { m with «open» := none }
  | .rollbackTo => if m.pending = [] then some m else none
  | .ddl => some (m.ddl tracked db (trimStart sql))
  | .dml | .other => some m

variable [Unicode] (stem : Bytes) (tracked : List (String × List String))

/-- What an event does, once its end is the log's. A table id stands for the table its
latest map in the statement gave it, and only until the statement is over. -/
def write? (m : Master) : BinlogEvent → Option Master
  | .rotate name =>
      let next := (parseU64 (lastPart name)).getD 0
      if m.file < next ∧ next < 2 ^ 31 ∧ name = fileName stem next then
        some { m with file := next, pos := 4, bound := [] }
      else none
  | .formatDescription => some { m with bound := [] }
  | .transactionPayload => none
  | .tableMap tableId db table _ =>
      m.open.map fun _ => { m with bound := (tableId, s!"{db}.{table}") :: m.bound }
  | .rows tableId changes =>
      (m.bound.lookup tableId).bind fun q => m.open.map fun ops =>
        let more := if isTracked tracked q then changes.map fun op => (q, op.stream) else []
        { m with «open» := some (ops ++ more) }
  | .query db sql => { m with bound := [] }.query tracked db sql
  | .xid => { m with bound := [] }.close
  | .coded code =>
      if isTxStart code then some { m with bound := [], «open» := some [] }
      else if skippable code then some { m with bound := [] }
      else none

/-- The log goes on past its end. A file ends in a ROTATE event, or just stops, and then
the dump says so with a ROTATE of its own. -/
def step? (m : Master) (e : Entry) : Option Master :=
  if m.file = e.file ∧ (m.pos < e.stop ∨ m.pos = e.stop ∧ e.rotates) then
    { m with pos := e.stop }.write? stem tracked e.body
  else none

/-- A legal log, and where it leaves the server. -/
def run? (m : Master) (log : List Entry) : Option Master :=
  log.foldlM (step? stem tracked) m

end Master

end Mysource

end Apitap
