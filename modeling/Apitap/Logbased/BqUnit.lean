import Apitap.Foundation.Grouping
import Apitap.Logbased.Replay
import Apitap.Logbased.Statement

/-!
# One BigQuery unit

What a window writes is gathered by table and committed at the unit's close, in as few
fenced transactions as fit. A transaction is a chunk of whole groups, and a table's
watermark is put at the end of that table's own group, so the two are never in different
transactions.
-/

namespace Apitap.BqUnit

open Foundation

/-- The qualified names a unit's statements use. -/
structure Names where
  state : String
  pending : String
  fence : String
  token : String

/-- The part of a name behind its last dot. -/
def bare (destTable : String) : String :=
  String.ofList (destTable.toList.reverse.takeWhile (· ≠ '.')).reverse

def hexDigit (n : Nat) : Char := Char.ofNat (if n < 10 then 48 + n else 87 + n)

/-- A character inside a string literal. -/
def sqlChar (c : Char) : List Char :=
  if c = '\\' then ['\\', '\\']
  else if c = '\'' then ['\\', '\'']
  else if c = '\n' then ['\\', 'n']
  else if c = '\r' then ['\\', 'r']
  else if c = '\t' then ['\\', 't']
  else if c.toNat < 0x20 ∨ c.toNat = 0x7F then
    ['\\', 'u', '0', '0', hexDigit (c.toNat / 16), hexDigit (c.toNat % 16)]
  else [c]

def sqlStr (s : String) : String := String.ofList (s.toList.flatMap sqlChar)

/-! ## What a table contributes -/

/-- Where one changelog table's statements write. -/
structure ClTarget where
  table : String
  sourceId : String
  tableFq : String
  pendingFq : String
  prune : String

def trimSql (plan : ReplayPlan) (target : ClTarget) (x : Nat) : String :=
  s!"DELETE FROM {target.tableFq} WHERE _apitap_lsn = {plan.stamp} AND _apitap_op != 'B' " ++
    s!"AND _apitap_seq >= {x}{target.prune};"

def markerSql (target : ClTarget) (m : MarkerRow) : String :=
  let last := m.«end»
  s!"INSERT INTO {target.pendingFq} (dest_table, source_id, lsn, seq_base, end_lsn, events, " ++
    s!"\x60at\x60) VALUES ('{sqlStr target.table}', '{sqlStr target.sourceId}', {m.start}, " ++
    s!"{m.seqBase}, {last}, {m.events}, CURRENT_TIMESTAMP());"

/-- One changelog table's share of its group: the trim, the marker, the rows. -/
def changelogGroupSql (plan : ReplayPlan) (target : ClTarget) (insert : Option String) :
    List String :=
  (plan.trimFrom.map (trimSql plan target)).toList ++
    ((plan.marker.map (markerSql target)).toList ++ insert.toList)

/-- What the close records of a table: where it stands now, or nothing any more. -/
inductive Watermark where
  | set (table sourceId : String) (lsn rows : Nat)
  | clear (table sourceId : String)
deriving DecidableEq, Repr

/-- Which of the shared tables the destination has when a mark is placed. -/
structure Facts where
  stateTable : Bool
  pending : Bool

def stateInsertSql (stateFq table sourceId : String) (lsn rows : Nat) : String :=
  s!"INSERT INTO {stateFq} (dest_table, source_id, cursor_col, watermark, mode, last_rows, " ++
    s!"synced_at) VALUES ('{sqlStr table}', '{sqlStr sourceId}', '_lsn', '{lsn}', " ++
    s!"'log_based', {rows}, CURRENT_TIMESTAMP());"

/-- The DELETE of one table's rows in a shared table. -/
def clearSql (sharedFq table sourceId : String) : String :=
  s!"DELETE FROM {sharedFq} WHERE dest_table = '{sqlStr table}' " ++
    s!"AND source_id = '{sqlStr sourceId}';"

/-- The state statements of one mark, each with its table. -/
def statesOf (names : Names) (facts : Facts) : Watermark → List (String × String)
  | .set table sourceId lsn rows =>
      [(bare table, stateInsertSql names.state (bare table) sourceId lsn rows)]
  | .clear table sourceId =>
      (if facts.stateTable then [(bare table, clearSql names.state (bare table) sourceId)]
        else []) ++
      if facts.pending then [(bare table, clearSql names.pending (bare table) sourceId)] else []

/-- The state statements of all marks, with what the destination answered at each. -/
def closeStates (names : Names) :
    List (Watermark × Except Error Facts) → Except Error (List (String × String))
  | [] => .ok []
  | (mark, answer) :: marks =>
      answer.bind fun facts =>
        (closeStates names marks).map (statesOf names facts mark ++ ·)

/-! ## Groups and chunks -/

abbrev Groups := List (String × List String)

/-- The statements onto the table's group, the group created if absent. -/
def append (groups : Groups) (table : String) (stmts : List String) : Groups :=
  Grouping.add table stmts groups

/-- Statements join their table's group. -/
def push (groups : Groups) (table : String) (stmts : List String) : Groups :=
  if stmts = [] then groups else append groups (bare table) stmts

/-- A unit's pushes, one after another. -/
def pushAll (pushes : List (String × List String)) : Groups :=
  pushes.foldl (fun groups p => push groups p.1 p.2) []

/-- Each state statement appended to its table's group. -/
def closeGroups (groups : Groups) (states : List (String × String)) : List (List String) :=
  ((states.foldl (fun groups s => append groups s.1 [s.2]) groups).map Prod.snd).filter (· ≠ [])

def maxTablesPerTxn : Nat := 95
def chunkBytes : Nat := 256 * 1024

/-- The bytes of a group's statements. -/
def glen (g : List String) : Nat := (g.map String.utf8ByteSize).sum

/-- The packing loop: the chunks closed, the open one, its bytes and its tables. -/
def packFrom (limit : Nat) :
    List (List String) → List (List String) → List String → Nat → Nat → List (List String)
  | [], out, batch, _, _ => if batch ≠ [] then out ++ [batch] else out
  | g :: groups, out, batch, len, tables =>
      if (limit < len + glen g ∨ maxTablesPerTxn ≤ tables) ∧ batch ≠ [] then
        packFrom limit groups (out ++ [batch]) ([] ++ g) (0 + glen g) (0 + 1)
      else packFrom limit groups out (batch ++ g) (len + glen g) (tables + 1)

def packWholeGroups (groups : List (List String)) (limit : Nat) : List (List String) :=
  packFrom limit groups [] [] 0 0

/-! ## The close -/

def fencedScript (names : Names) (chunk : List String) : String :=
  "BEGIN TRANSACTION;\n" ++
  s!"UPDATE {names.fence} SET n = n + 1 WHERE NOT claimed;\n" ++
  "IF @@row_count <> 1 THEN RAISE USING MESSAGE = 'apitap-lease-lost: run " ++
  s!"{sqlStr names.token} no longer holds its tables'; END IF;\n" ++
  "\n".intercalate chunk ++ "\nCOMMIT TRANSACTION;"

/-- A statement carries its own terminator. -/
def terminated (s : String) : Bool :=
  (s.toList.reverse.dropWhile Mysource.isWhitespace).head? = some ';'

def unterminated (s : String) : Error :=
  .transfer ("log_based: a BigQuery statement is missing its ';' and would swallow the COMMIT " ++
    "that follows it: " ++ String.ofList (s.toList.take 120))

/-- The chunks run one after another as fenced scripts, up to the first that fails. -/
def submit (names : Names) (answer : Nat → Except Error Unit) :
    Nat → List (List String) → List String × Except Error Unit
  | _, [] => ([], .ok ())
  | i, chunk :: chunks =>
      match answer i with
      | .error e => ([fencedScript names chunk], .error e)
      | .ok () =>
          let (more, result) := submit names answer (i + 1) chunks
          (fencedScript names chunk :: more, result)

/-- The scripts the close submits, and how it ends. -/
def closeUnit (names : Names) (limit : Nat) (groups : Groups)
    (marks : List (Watermark × Except Error Facts)) (answer : Nat → Except Error Unit) :
    List String × Except Error Unit :=
  match closeStates names marks with
  | .error e => ([], .error e)
  | .ok states =>
      let chunks := packWholeGroups (closeGroups groups states) limit
      match chunks.flatten.find? fun s => !terminated s with
      | some bad => ([], .error (unterminated bad))
      | none => submit names answer 0 chunks

/-! ## A table's group -/

section group

variable {pushes : List (String × List String)} {states : List (String × String)}

/-- What is pushed for a table, in order. -/
def statementsOf (pushes : List (String × List String)) (table : String) : List String :=
  pushes.flatMap fun p => if bare p.1 = table then p.2 else []

/-- The state statements of a table, in order. -/
def watermarksOf (states : List (String × String)) (table : String) : List String :=
  states.flatMap fun s => if s.1 = table then [s.2] else []

def groupOf (pushes : List (String × List String)) (states : List (String × String))
    (table : String) : List String :=
  statementsOf pushes table ++ watermarksOf states table

/-- The unit's tables in the order of their first statement. -/
def tables (pushes : List (String × List String)) (states : List (String × String)) :
    List String :=
  ((pushes.filter (·.2 ≠ [])).map (fun p => bare p.1) ++ states.map Prod.fst).eraseDups

/-- Pushes and state statements as what is added to the groups. -/
def adds (pushes : List (String × List String)) (states : List (String × String)) :
    List (String × List String) :=
  (pushes.filter (·.2 ≠ [])).map (fun p => (bare p.1, p.2)) ++ states.map fun s => (s.1, [s.2])

theorem keys_adds : Grouping.keys (adds pushes states) = tables pushes states := by
  simp only [Grouping.keys, adds, tables, List.map_append, List.map_map]
  rfl

theorem collected_adds (table : String) :
    Grouping.collected (adds pushes states) table = groupOf pushes states table := by
  have kept : ∀ p : String × List String, (if bare p.1 = table then p.2 else []) ≠ [] →
    p.2 ≠ [] := by
    intro p some_statement none
    apply some_statement
    split
    · exact none
    · rfl
  have pushed : ((pushes.filter (·.2 ≠ [])).flatMap fun p => if bare p.1 = table then p.2 else []) =
      statementsOf pushes table := by
    rw [statementsOf]
    induction pushes with
    | nil => rfl
    | cons p pushes ih =>
        rw [List.filter_cons]
        split
        case isTrue some_statement => rw [List.flatMap_cons, List.flatMap_cons, ih]
        case isFalse empty =>
          have none : p.2 = [] := by simpa using empty
          rw [ih, List.flatMap_cons, none, ite_self, List.nil_append]
  rw [adds, Grouping.collected_append, groupOf, ← pushed]
  simp only [Grouping.collected, List.flatMap_map, watermarksOf]

theorem pushAll_eq (pushes : List (String × List String)) (groups : Groups) :
    pushes.foldl (fun groups p => push groups p.1 p.2) groups =
      Grouping.addAll ((pushes.filter (·.2 ≠ [])).map fun p => (bare p.1, p.2)) groups := by
  induction pushes generalizing groups with
  | nil => rfl
  | cons p pushes ih =>
      rw [List.foldl_cons, ih, List.filter_cons, push]
      by_cases empty : p.2 = []
      · simp only [empty, if_true, ne_eq, not_true_eq_false, decide_false, Bool.false_eq_true,
          if_false]
      · simp only [empty, if_false, ne_eq, not_false_eq_true, decide_true, if_true, List.map_cons]
        rfl

theorem groupOf_ne_nil {t : String} (t_mem : t ∈ tables pushes states) :
    groupOf pushes states t ≠ [] := by
  rw [← keys_adds] at t_mem
  obtain ⟨stmts, added⟩ := Grouping.mem_keys.mp t_mem
  rw [← collected_adds]
  apply Grouping.collected_ne_nil added
  rcases List.mem_append.mp added with pushed | state
  · obtain ⟨p, p_mem, same⟩ := List.mem_map.mp pushed
    cases same
    simpa using (List.mem_filter.mp p_mem).2
  · obtain ⟨s, -, same⟩ := List.mem_map.mp state
    cases same
    exact List.cons_ne_nil _ _

/-- The groups of a unit at its close: one for each table, its watermark statements last. -/
theorem closeGroups_eq (pushes : List (String × List String)) (states : List (String × String)) :
    closeGroups (pushAll pushes) states =
      (tables pushes states).map (groupOf pushes states) := by
  have closed : states.foldl (fun groups s => append groups s.1 [s.2]) (pushAll pushes) =
      Grouping.addAll (adds pushes states) [] := by
    rw [pushAll, pushAll_eq, adds, Grouping.addAll, Grouping.addAll, List.foldl_append,
      List.foldl_map, List.foldl_map]
    rfl
  have some_statement : ∀ g ∈ (tables pushes states).map (groupOf pushes states), g ≠ [] := by
    intro g g_mem
    obtain ⟨t, t_mem, rfl⟩ := List.mem_map.mp g_mem
    exact groupOf_ne_nil t_mem
  rw [closeGroups, closed, Grouping.addAll_nil, keys_adds, List.map_map]
  have groups : (Prod.snd ∘ fun k => (k, Grouping.collected (adds pushes states) k)) =
      groupOf pushes states := funext collected_adds
  rw [groups, List.filter_eq_self.mpr fun g g_mem => decide_eq_true (some_statement g g_mem)]

end group

/-! ## Chunks of whole groups -/

section chunks

variable {limit : Nat}

/-- The loop packs groups, and its chunks are what the groups of a batch hold. -/
theorem packFrom_eq {groups : List (List String)} (full : ∀ g ∈ groups, g ≠ [])
    (out batch : List (List String)) (open_ : ∀ g ∈ batch, g ≠ []) :
    packFrom limit groups out batch.flatten (Packing.total glen batch) batch.length =
      out ++ (Packing.pack glen limit maxTablesPerTxn groups batch).map List.flatten := by
  have empty_iff : ∀ {b : List (List String)}, (∀ g ∈ b, g ≠ []) → (b.flatten = [] ↔ b = []) := by
    intro b some_statement
    constructor
    · intro none
      cases b with
      | nil => rfl
      | cons g b =>
          have first := (List.append_eq_nil_iff.mp none).1
          exact absurd first (some_statement g List.mem_cons_self)
    · rintro rfl
      rfl
  induction groups generalizing out batch with
  | nil =>
      rw [packFrom, Packing.pack]
      by_cases none : batch = []
      · simp [none]
      · rw [if_pos (mt (empty_iff open_).mp none), if_neg none]
        rfl
  | cons g groups ih =>
      have later : ∀ h ∈ groups, h ≠ [] := fun h h_mem => full h (List.mem_cons_of_mem _ h_mem)
      have here : g ≠ [] := full g List.mem_cons_self
      rw [packFrom, Packing.pack]
      by_cases cut : (limit < Packing.total glen batch + glen g ∨ maxTablesPerTxn ≤ batch.length) ∧
          batch ≠ []
      · have fresh := ih later (out ++ [batch.flatten]) [g] fun h h_mem => by
          rw [List.mem_singleton.mp h_mem]
          exact here
        have single : [g].flatten = [] ++ g := by simp
        have weight : Packing.total glen [g] = 0 + glen g := by simp [Packing.total]
        rw [single, weight] at fresh
        rw [if_pos ⟨cut.1, mt (empty_iff open_).mp cut.2⟩, if_pos cut]
        refine Eq.trans fresh ?_
        rw [List.map_cons, List.append_assoc]
        rfl
      · have more := ih later out (batch ++ [g]) fun h h_mem => by
          rcases List.mem_append.mp h_mem with old | new
          · exact open_ h old
          · rw [List.mem_singleton.mp new]
            exact here
        have joined : (batch ++ [g]).flatten = batch.flatten ++ g := by simp
        have weight : Packing.total glen (batch ++ [g]) = Packing.total glen batch + glen g := by
          simp [Packing.total]
        rw [joined, weight, List.length_append, List.length_singleton] at more
        rw [if_neg fun both => cut ⟨both.1, fun none => both.2 ((empty_iff open_).mpr none)⟩,
          if_neg cut, more]

/-- The bytes of a batch are those of its chunk. -/
theorem total_glen (batch : List (List String)) :
    Packing.total glen batch = glen batch.flatten := by
  induction batch with
  | nil => rfl
  | cons g batch ih =>
      have step : Packing.total glen (g :: batch) = glen g + Packing.total glen batch := by
        simp [Packing.total]
      rw [step, ih, List.flatten_cons, glen, glen, glen, List.map_append, List.sum_append]

/-- The chunks are the groups of consecutive tables, and no chunk of more than one table is
over the limit. -/
theorem exists_parts (limit : Nat) {group : String → List String} {ts : List String}
    (full : ∀ t ∈ ts, group t ≠ []) :
    ∃ parts : List (List String), parts.flatten = ts ∧
      packWholeGroups (ts.map group) limit = parts.map (·.flatMap group) ∧
      ∀ part ∈ parts, part ≠ [] ∧ part.length ≤ maxTablesPerTxn ∧
        (glen (part.flatMap group) ≤ limit ∨ ∃ t, part = [t]) := by
  have groups : ∀ g ∈ ts.map group, g ≠ [] := by
    intro g g_mem
    obtain ⟨t, t_mem, rfl⟩ := List.mem_map.mp g_mem
    exact full t t_mem
  have packed : packWholeGroups (ts.map group) limit =
      (Packing.pack glen limit maxTablesPerTxn (ts.map group) []).map List.flatten :=
    packFrom_eq groups [] [] (by simp)
  have named : Packing.pack glen limit maxTablesPerTxn (ts.map group) ([].map group) =
      (Packing.pack (glen ∘ group) limit maxTablesPerTxn ts []).map (List.map group) :=
    Packing.pack_map group ts []
  refine ⟨Packing.pack (glen ∘ group) limit maxTablesPerTxn ts [], ?_, ?_, ?_⟩
  · exact Packing.pack_flatten ts []
  · rw [List.map_nil] at named
    rw [named, List.map_map] at packed
    exact packed
  · intro part part_mem
    have fits := Packing.pack_fits (by decide) ts (.inl rfl) part part_mem
    have bytes : Packing.total (glen ∘ group) part = glen (part.flatMap group) := by
      rw [List.flatMap_def, ← total_glen, Packing.total, Packing.total, List.map_map]
    refine ⟨fits.some_item, fits.length_le, ?_⟩
    rw [← bytes]
    exact fits.total_le

end chunks

/-! ## The window and its watermark -/

/-- Every chunk is submitted, when none fails. -/
theorem submit_all {names : Names} {answer : Nat → Except Error Unit} {i : Nat}
    {chunks : List (List String)} (fine : ∀ j < chunks.length, answer (i + j) = .ok ()) :
    submit names answer i chunks = (chunks.map (fencedScript names), .ok ()) := by
  induction chunks generalizing i with
  | nil => rfl
  | cons chunk chunks ih =>
      have first : answer i = .ok () := fine 0 (Nat.succ_pos _)
      have rest : submit names answer (i + 1) chunks =
          (chunks.map (fencedScript names), .ok ()) := by
        apply ih
        intro j lt
        have later := fine (j + 1) (Nat.succ_lt_succ lt)
        rwa [Nat.add_comm j 1, ← Nat.add_assoc] at later
      simp only [submit, first, rest, List.map_cons]

/-- The chunks up to the first that fails are submitted. -/
theorem submit_upto {names : Names} {answer : Nat → Except Error Unit} {i n : Nat} {e : Error}
    {chunks : List (List String)} (lt : n < chunks.length)
    (fine : ∀ j < n, answer (i + j) = .ok ()) (fails : answer (i + n) = .error e) :
    submit names answer i chunks = ((chunks.take (n + 1)).map (fencedScript names), .error e) := by
  induction chunks generalizing i n with
  | nil => exact absurd lt (Nat.not_lt_zero n)
  | cons chunk chunks ih =>
      cases n with
      | zero =>
          have first : answer i = .error e := fails
          simp only [submit, first, Nat.zero_add, List.take_succ_cons, List.take_zero,
            List.map_singleton]
      | succ n =>
          have first : answer i = .ok () := fine 0 (Nat.succ_pos _)
          have shift (j : Nat) : i + 1 + j = i + (j + 1) := by omega
          have rest : submit names answer (i + 1) chunks =
              ((chunks.take (n + 1)).map (fencedScript names), .error e) := by
            refine ih (Nat.lt_of_succ_lt_succ lt) (fun j before => ?_) ?_
            · rw [shift]
              exact fine (j + 1) (Nat.succ_lt_succ before)
            · rw [shift]
              exact fails
          simp only [submit, first, rest, List.take_succ_cons, List.map_cons]

/-- What a close submits, and how it ends. -/
structure Closes (names : Names) (limit : Nat) (groups : Groups)
    (marks : List (Watermark × Except Error Facts)) (answer : Nat → Except Error Unit)
    (close : List String × Except Error Unit) : Prop where
  /-- A mark could not be placed. -/
  unplaced : ∀ e, closeStates names marks = .error e → close = ([], .error e)
  /-- A statement would swallow the COMMIT behind it. -/
  swallows : ∀ states, closeStates names marks = .ok states →
    (∃ s ∈ (packWholeGroups (closeGroups groups states) limit).flatten, terminated s = false) →
      ∃ bad ∈ (packWholeGroups (closeGroups groups states) limit).flatten,
        terminated bad = false ∧ close = ([], .error (unterminated bad))
  /-- Every chunk, in order, each as one fenced script. -/
  whole : ∀ states, closeStates names marks = .ok states →
    (∀ s ∈ (packWholeGroups (closeGroups groups states) limit).flatten, terminated s = true) →
    (∀ i < (packWholeGroups (closeGroups groups states) limit).length, answer i = .ok ()) →
      close = ((packWholeGroups (closeGroups groups states) limit).map (fencedScript names), .ok ())
  /-- The chunks up to the first whose script fails, that one included. -/
  stopped : ∀ states, closeStates names marks = .ok states →
    (∀ s ∈ (packWholeGroups (closeGroups groups states) limit).flatten, terminated s = true) →
    ∀ i < (packWholeGroups (closeGroups groups states) limit).length, ∀ e,
      (∀ j < i, answer j = .ok ()) → answer i = .error e →
        close = (((packWholeGroups (closeGroups groups states) limit).take (i + 1)).map
          (fencedScript names), .error e)

theorem closeUnit_closes (names : Names) (limit : Nat) (groups : Groups)
    (marks : List (Watermark × Except Error Facts)) (answer : Nat → Except Error Unit) :
    Closes names limit groups marks answer (closeUnit names limit groups marks answer) := by
  have submits {states : List (String × String)} (placed : closeStates names marks = .ok states)
      (sound : ∀ s ∈ (packWholeGroups (closeGroups groups states) limit).flatten,
        terminated s = true) :
      closeUnit names limit groups marks answer =
        submit names answer 0 (packWholeGroups (closeGroups groups states) limit) := by
    have none_bad : (packWholeGroups (closeGroups groups states) limit).flatten.find?
        (fun s => !terminated s) = none := by
      rw [List.find?_eq_none]
      intro s mem
      rw [sound s mem]
      decide
    simp only [closeUnit, placed, none_bad]
  refine ⟨fun e fails => ?_, fun states placed bad => ?_, fun states placed sound fine => ?_,
    fun states placed sound i lt e fine fails => ?_⟩
  · simp only [closeUnit, fails]
  · have found : ((packWholeGroups (closeGroups groups states) limit).flatten.find?
        fun s => !terminated s).isSome := by
      rw [List.find?_isSome]
      obtain ⟨s, mem, is⟩ := bad
      exact ⟨s, mem, by rw [is]; rfl⟩
    obtain ⟨s, is⟩ := Option.isSome_iff_exists.mp found
    refine ⟨s, List.mem_of_find?_eq_some is, ?_, ?_⟩
    · have wrong := List.find?_some is
      simpa using wrong
    · simp only [closeUnit, placed, is]
  · rw [submits placed sound]
    apply submit_all
    intro j lt
    rw [Nat.zero_add]
    exact fine j lt
  · rw [submits placed sound]
    apply submit_upto lt
    · intro j before
      rw [Nat.zero_add]
      exact fine j before
    · rw [Nat.zero_add]
      exact fails

/-- Chunks made of whole groups: `parts` are the tables of each. -/
structure WholeGroups (limit : Nat) (pushes : List (String × List String))
    (states : List (String × String)) (chunks : List (List String))
    (parts : List (List String)) : Prop where
  /-- Tables stand in the order of their groups. -/
  in_order : parts.flatten = tables pushes states
  /-- A table is in one chunk only. -/
  one_chunk : ∀ t ∈ tables pushes states, ∃! i : Nat, ∃ part, parts[i]? = some part ∧ t ∈ part
  /-- A chunk holds all that was pushed for each of its tables, and then the table's watermark. -/
  whole : chunks = parts.map
    (·.flatMap fun t => statementsOf pushes t ++ watermarksOf states t)
  capped : ∀ part ∈ parts, part ≠ [] ∧ part.length ≤ 95
  within : ∀ part ∈ parts,
    glen (part.flatMap fun t => statementsOf pushes t ++ watermarksOf states t) ≤ limit ∨
      ∃ t, part = [t]
  /-- No statement is lost or made twice. -/
  exactly : chunks.flatten.Perm (pushes.flatMap Prod.snd ++ states.map Prod.snd)

theorem pushed_statements (pushes : List (String × List String)) :
    ((pushes.filter (·.2 ≠ [])).map fun p => (bare p.1, p.2)).flatMap Prod.snd =
      pushes.flatMap Prod.snd := by
  induction pushes with
  | nil => rfl
  | cons p pushes ih =>
      by_cases empty : p.2 = []
      · simpa [List.filter_cons, empty] using ih
      · simpa [List.filter_cons, empty] using ih

theorem groups_perm (pushes : List (String × List String)) (states : List (String × String)) :
    ((tables pushes states).flatMap (groupOf pushes states)).Perm
      (pushes.flatMap Prod.snd ++ states.map Prod.snd) := by
  have all := Grouping.addAll_perm (adds pushes states) []
  have grouped : (Grouping.addAll (adds pushes states) []).flatMap Prod.snd =
      (tables pushes states).flatMap (groupOf pushes states) := by
    rw [Grouping.addAll_nil, keys_adds, List.flatMap_map]
    exact List.flatMap_congr fun t _ => collected_adds t
  have marked : (states.map fun s => (s.1, [s.2])).flatMap Prod.snd = states.map Prod.snd := by
    rw [List.flatMap_map]
    exact (List.map_eq_flatMap ..).symm
  rw [grouped, List.flatMap_nil, List.nil_append, adds, List.flatMap_append, pushed_statements,
    marked] at all
  exact all

theorem one_part {parts : List (List String)} (nodup : parts.flatten.Nodup) {t : String}
    (t_mem : t ∈ parts.flatten) : ∃! i : Nat, ∃ part, parts[i]? = some part ∧ t ∈ part := by
  obtain ⟨part, part_mem, t_in⟩ := List.mem_flatten.mp t_mem
  obtain ⟨i, at_i⟩ := List.mem_iff_getElem?.mp part_mem
  refine ⟨i, ⟨part, at_i, t_in⟩, ?_⟩
  rintro j ⟨other, at_j, t_other⟩
  have disjoint := (List.nodup_flatten.mp nodup).2
  have apart : ∀ {a b : Nat} {u v : List String}, parts[a]? = some u → parts[b]? = some v →
      t ∈ u → t ∈ v → ¬ a < b := by
    intro a b u v at_a at_b in_u in_v before
    obtain ⟨a_lt, rfl⟩ := List.getElem?_eq_some_iff.mp at_a
    obtain ⟨b_lt, rfl⟩ := List.getElem?_eq_some_iff.mp at_b
    exact List.pairwise_iff_getElem.mp disjoint a b a_lt b_lt before in_u in_v
  exact Nat.le_antisymm (Nat.not_lt.mp (apart at_i at_j t_in t_other))
    (Nat.not_lt.mp (apart at_j at_i t_other t_in))

/-- The chunks of a unit are whole groups; a changelog table's trim, marker and rows stand in this
order before its watermark; and a close submits those chunks, up to the first that fails. -/
theorem window_and_watermark_together :
    (∀ (limit : Nat) (pushes : List (String × List String)) (states : List (String × String)),
      ∃ parts, WholeGroups limit pushes states
        (packWholeGroups (closeGroups (pushAll pushes) states) limit) parts) ∧
    (∀ (front back : List (String × List String)) (table : String) (plan : ReplayPlan)
      (target : ClTarget) (insert : Option String),
      statementsOf (front ++ (table, changelogGroupSql plan target insert) :: back) (bare table) =
        statementsOf front (bare table) ++
          ((plan.trimFrom.map (trimSql plan target)).toList ++
            ((plan.marker.map (markerSql target)).toList ++ insert.toList)) ++
          statementsOf back (bare table)) ∧
    ∀ (names : Names) (limit : Nat) (groups : Groups)
      (marks : List (Watermark × Except Error Facts)) (answer : Nat → Except Error Unit),
      Closes names limit groups marks answer (closeUnit names limit groups marks answer) := by
  refine ⟨fun limit pushes states => ?_, ?_, closeUnit_closes⟩
  · have full : ∀ t ∈ tables pushes states, groupOf pushes states t ≠ [] := by
      intro t t_mem
      exact groupOf_ne_nil t_mem
    obtain ⟨parts, in_order, whole, fits⟩ := exists_parts limit full
    have nodup : parts.flatten.Nodup := by
      rw [in_order, ← keys_adds]
      exact Grouping.nodup_keys _
    rw [closeGroups_eq]
    refine ⟨parts, in_order, ?_, whole, ?_, ?_, ?_⟩
    · intro t t_mem
      exact one_part nodup (in_order ▸ t_mem)
    · intro part part_mem
      exact ⟨(fits part part_mem).1, (fits part part_mem).2.1⟩
    · intro part part_mem
      exact (fits part part_mem).2.2
    · have flat : (parts.map (·.flatMap (groupOf pushes states))).flatten =
          (tables pushes states).flatMap (groupOf pushes states) := by
        have joined : parts.flatten = parts.flatMap id := List.flatMap_id.symm
        rw [← in_order, joined, List.flatMap_assoc, ← List.flatMap_def]
        rfl
      rw [whole, flat]
      exact groups_perm pushes states
  · intro front back table plan target insert
    rw [statementsOf, List.flatMap_append, List.flatMap_cons, if_pos rfl, ← List.append_assoc]
    rfl

/-- Three tables over a limit that holds one each: the window of the first is submitted with its
watermark, and nothing behind the second, whose script fails. -/
theorem window_and_watermark_together_stopped :
    let names : Names := ⟨"d.s", "d.p", "d.f", "t"⟩
    let pushes := [("d.a", ["x;"]), ("d.b", ["y;"]), ("d.a", ["z;"]), ("d.c", ["w;"])]
    let mark := stateInsertSql "d.s" "a" "s" 7 1
    let answer (i : Nat) : Except Error Unit := if i = 1 then .error (.transfer "lost") else .ok ()
    (∃ parts, WholeGroups 3 pushes [("a", mark)] [["x;", "z;", mark], ["y;"], ["w;"]] parts) ∧
      closeUnit names 3 (pushAll pushes) [(.set "d.a" "s" 7 1, .ok ⟨true, true⟩)] answer =
        ([fencedScript names ["x;", "z;", mark], fencedScript names ["y;"]],
          .error (.transfer "lost")) := by
  intro names pushes mark answer
  have chunks : packWholeGroups (closeGroups (pushAll pushes) [("a", mark)]) 3 =
      [["x;", "z;", mark], ["y;"], ["w;"]] := by decide +kernel
  obtain ⟨packs, -, closes⟩ := window_and_watermark_together
  refine ⟨chunks ▸ packs 3 pushes [("a", mark)], ?_⟩
  have stops := (closes names 3 (pushAll pushes) [(.set "d.a" "s" 7 1, .ok ⟨true, true⟩)]
    answer).stopped [("a", mark)] (by decide +kernel)
  rw [chunks] at stops
  exact stops (by decide +kernel) 1 (by decide) _ (by decide +kernel) (by decide +kernel)

end Apitap.BqUnit
