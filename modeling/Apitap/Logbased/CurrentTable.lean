import Mathlib.Data.List.Induction
import Mathlib.Order.MinMax
import Apitap.Logbased.Rebuild
import Apitap.Logbased.ReplayOnce

/-!
# `<table>__current` is the source's table

A log in order means a table: a row is settled over the earlier ones of its key, a
`D` empties its key, a `T` empties everything. The view finds the same table by
looking at positions only. Recording a window keeps the log in order and settles
the source's rows, masked cells included: the carry and the pre-window table between
them always hold the row an event is about.
-/

namespace Apitap

/-! ## The view of a log in order -/

namespace LogRow

theorem before_refl (a : LogRow Entry) : before a a = true := by simp [before]

theorem before_trans (a b c : LogRow Entry) (ab : before a b = true) (bc : before b c = true) :
    before a c = true := by
  simp only [before, decide_eq_true_eq] at *
  obtain ab | ⟨ab, ab'⟩ := ab
  · obtain bc | ⟨bc, -⟩ := bc
    · exact .inl (lt_trans bc ab)
    · exact .inl (bc ▸ ab)
  · obtain bc | ⟨bc, bc'⟩ := bc
    · exact .inl (ab ▸ bc)
    · exact .inr ⟨ab.trans bc, fun isEvent => ab' (bc' isEvent)⟩

theorem before_total (a b : LogRow Entry) : (before a b || before b a) = true := by
  simp only [before, Bool.or_eq_true, decide_eq_true_eq]
  obtain lt | same | gt := lt_trichotomy a.pos b.pos
  · exact .inr (.inl lt)
  · cases isEvent : a.isEvent with
    | true => exact .inl (.inr ⟨same, fun _ => rfl⟩)
    | false => exact .inr (.inr ⟨same.symm, nofun⟩)
  · exact .inl (.inl gt)

/-- `b` may stand after `a` in a log: events rise strictly, past the baseline rows
they may share a position with; baseline rows share theirs and differ in their keys. -/
def Follows (pkIdx : List Nat) (a b : LogRow Entry) : Prop :=
  if b.isEvent then a.pos < b.pos ∨ a.pos = b.pos ∧ a.isEvent = false
  else a.isEvent = false ∧ a.pos = b.pos ∧ a.key pkIdx ≠ b.key pkIdx

/-- No earlier row of a key comes before a later one. -/
theorem Follows.not_before {pkIdx : List Nat} {a b : LogRow Entry} (follows : Follows pkIdx a b)
    (same : a.key pkIdx = b.key pkIdx) : before a b = false := by
  simp only [before, decide_eq_false_iff_not, not_or, not_and]
  rw [Follows] at follows
  split at follows
  · rename_i isEvent
    obtain lt | ⟨level, base⟩ := follows
    · exact ⟨lt_asymm lt, fun here => absurd here (ne_of_lt lt)⟩
    · refine ⟨level ▸ lt_irrefl _, fun _ carried => ?_⟩
      rw [carried isEvent] at base
      nomatch base
  · exact absurd same follows.2.2

end LogRow

/-- A log in order, past the position nothing is below. -/
structure InOrder (pkIdx : List Nat) (log : List (LogRow Entry)) : Prop where
  follows : log.Pairwise (LogRow.Follows pkIdx)
  positive : ∀ r ∈ log, toLex (0, 0) < r.pos

section

variable {pkIdx : List Nat} {log : List (LogRow Entry)} {r : LogRow Entry}

/-- No two rows of one key rank the same. -/
def Ranked (pkIdx : List Nat) (log : List (LogRow Entry)) : Prop :=
  ∀ a ∈ log, ∀ b ∈ log, a.key pkIdx = b.key pkIdx → LogRow.before a b = true →
    LogRow.before b a = true → a = b

theorem InOrder.ranked (ordered : InOrder pkIdx log) : Ranked pkIdx log := by
  intro a ha b hb same ab ba
  have apart : a = b ∨ LogRow.Follows pkIdx a b ∨ LogRow.Follows pkIdx b a := by
    obtain ⟨i, hi, rfl⟩ := List.getElem_of_mem ha
    obtain ⟨j, hj, rfl⟩ := List.getElem_of_mem hb
    have rising := List.pairwise_iff_getElem.mp ordered.follows
    obtain lt | rfl | gt := Nat.lt_trichotomy i j
    · exact .inr (.inl (rising i j hi hj lt))
    · exact .inl rfl
    · exact .inr (.inr (rising j i hj hi gt))
  obtain here | follows | follows := apart
  · exact here
  · rw [follows.not_before same] at ab
    nomatch ab
  · rw [follows.not_before same.symm] at ba
    nomatch ba

/-- A row the view selects: the newest of its key past the newest `T`, and no `D`. -/
theorem mem_newestRows (ranked : Ranked pkIdx log) {want : List Cell → Bool} :
    r ∈ newestRows pkIdx want log ↔
      want (r.key pkIdx) = true ∧ r ∈ log ∧ truncatedAt log < r.pos ∧ r.isOp .delete = false ∧
        ∀ b ∈ log, truncatedAt log < b.pos → b.key pkIdx = r.key pkIdx →
          LogRow.before r b = true := by
  have members {a : LogRow Entry} :
      a ∈ (log.filter fun r => want (r.key pkIdx) ∧ truncatedAt log < r.pos) ↔
        a ∈ log ∧ want (a.key pkIdx) = true ∧ truncatedAt log < a.pos := by
    rw [List.mem_filter, decide_eq_true_eq]
  rw [newestRows, List.mem_filter, mem_topPerKey LogRow.before_refl LogRow.before_trans
    LogRow.before_total, members, Bool.not_eq_true']
  · constructor
    · rintro ⟨⟨⟨mem, wanted, past⟩, first⟩, live⟩
      refine ⟨wanted, mem, past, live, fun b there above same => ?_⟩
      exact first b (members.mpr ⟨there, same ▸ wanted, above⟩) same
    · rintro ⟨wanted, mem, past, live, first⟩
      refine ⟨⟨⟨mem, wanted, past⟩, fun b there same => ?_⟩, live⟩
      obtain ⟨there, -, above⟩ := members.mp there
      exact first b there above same
  · intro a ha b hb same ab ba
    exact ranked a (members.mp ha).1 b (members.mp hb).1 same ab ba

theorem mem_newestRows_iff (ranked : Ranked pkIdx log) {want : List Cell → Bool} :
    r ∈ newestRows pkIdx want log ↔
      want (r.key pkIdx) = true ∧ r ∈ currentView pkIdx log := by
  rw [currentView, mem_newestRows ranked, mem_newestRows ranked]
  exact ⟨fun ⟨w, rest⟩ => ⟨w, rfl, rest⟩, fun ⟨w, _, rest⟩ => ⟨w, rest⟩⟩

/-! ## What a log in order means -/

/-- One more row. -/
def settleRow (pkIdx : List Nat) (T : List Cell → Option (LogRow Entry)) (r : LogRow Entry) :
    List Cell → Option (LogRow Entry) :=
  if r.isOp .truncate then fun _ => none
  else Function.update T (r.key pkIdx) (if r.isOp .delete then none else some r)

/-- The rows a log leaves, by key. -/
def logTable (pkIdx : List Nat) (log : List (LogRow Entry)) : List Cell → Option (LogRow Entry) :=
  log.foldl (settleRow pkIdx) fun _ => none

theorem logTable_concat : logTable pkIdx (log ++ [r]) = settleRow pkIdx (logTable pkIdx log) r := by
  rw [logTable, List.foldl_append]
  rfl

theorem foldl_max_le {α : Type} [LinearOrder α] {xs : List α} {a b : α} :
    xs.foldl max a ≤ b ↔ a ≤ b ∧ ∀ x ∈ xs, x ≤ b := by
  induction xs generalizing a with
  | nil => simp
  | cons x xs ih => rw [List.foldl_cons, ih, max_le_iff, List.forall_mem_cons, and_assoc]

theorem foldl_max_mem {α : Type} [LinearOrder α] (xs : List α) (a : α) :
    xs.foldl max a = a ∨ xs.foldl max a ∈ xs := by
  induction xs generalizing a with
  | nil => exact .inl rfl
  | cons x xs ih =>
      rw [List.foldl_cons]
      obtain here | there := ih (max a x)
      · rw [here]
        obtain same | same := max_choice a x
        · exact .inl same
        · exact .inr (by rw [same]; exact .head xs)
      · exact .inr (.tail x there)

theorem truncatedAt_le {p : Nat ×ₗ Nat} :
    truncatedAt log ≤ p ↔
      toLex (0, 0) ≤ p ∧ ∀ r ∈ log, r.isOp .truncate = true → r.pos ≤ p := by
  rw [truncatedAt, foldl_max_le]
  refine and_congr_right fun _ => ⟨fun above r mem trunc => ?_, fun above p mem => ?_⟩
  · exact above _ (List.mem_map_of_mem (List.mem_filter.mpr ⟨mem, trunc⟩))
  · obtain ⟨r, held, rfl⟩ := List.mem_map.mp mem
    exact above r (List.mem_filter.mp held).1 (List.mem_filter.mp held).2

theorem pos_le_truncatedAt (mem : r ∈ log) (trunc : r.isOp .truncate = true) :
    r.pos ≤ truncatedAt log := (truncatedAt_le.mp le_rfl).2 r mem trunc

/-- The newest `T` is a row of the log, or there is none. -/
theorem truncatedAt_mem (log : List (LogRow Entry)) :
    truncatedAt log = toLex (0, 0) ∨
      ∃ r ∈ log, r.isOp .truncate = true ∧ truncatedAt log = r.pos := by
  refine (foldl_max_mem _ _).imp id fun mem => ?_
  obtain ⟨r, mem, same⟩ := List.mem_map.mp mem
  exact ⟨r, (List.mem_filter.mp mem).1, (List.mem_filter.mp mem).2, same.symm⟩

theorem isEvent_of_isOp {op : ChangeOp} (isOp : r.isOp op = true) : r.isEvent = true := by
  obtain ⟨lsn, seq, entry⟩ := r
  cases entry with
  | baseline row => nomatch isOp
  | event e => rfl

/-- A `T` behind every row it clears. -/
theorem truncatedAt_concat_of_truncate (ordered : InOrder pkIdx (log ++ [r]))
    (trunc : r.isOp .truncate = true) {b : LogRow Entry} (mem : b ∈ log ++ [r]) :
    ¬ truncatedAt (log ++ [r]) < b.pos := by
  have last : r.pos ≤ truncatedAt (log ++ [r]) :=
    pos_le_truncatedAt (List.mem_append_right log (.head [])) trunc
  refine not_lt.mpr (le_trans ?_ last)
  obtain mem | mem := List.mem_append.mp mem
  · have follows := (List.pairwise_append.mp ordered.follows).2.2 b mem r (.head [])
    rw [LogRow.Follows, if_pos (isEvent_of_isOp trunc)] at follows
    exact follows.elim le_of_lt fun level => le_of_eq level.1
  · exact le_of_eq (congrArg LogRow.pos (List.mem_singleton.mp mem))

/-- Any other row leaves the newest `T` where it was, and stands past it. -/
theorem truncatedAt_concat (ordered : InOrder pkIdx (log ++ [r]))
    (other : r.isOp .truncate = false) :
    truncatedAt (log ++ [r]) = truncatedAt log ∧ truncatedAt log < r.pos := by
  constructor
  · rw [truncatedAt, List.filter_append, List.filter_cons_of_neg (by rw [other]; nofun),
      List.filter_nil, List.append_nil]
    rfl
  · obtain zero | ⟨t, mem, trunc, same⟩ := truncatedAt_mem log
    · rw [zero]
      exact ordered.positive r (List.mem_append_right log (.head []))
    · have follows := (List.pairwise_append.mp ordered.follows).2.2 t mem r (.head [])
      have isEvent := isEvent_of_isOp trunc
      rw [same]
      rw [LogRow.Follows] at follows
      split at follows
      · exact follows.resolve_right fun level => by rw [level.2] at isEvent; nomatch isEvent
      · rw [follows.1] at isEvent
        nomatch isEvent

theorem InOrder.front {rest : List (LogRow Entry)} (ordered : InOrder pkIdx (log ++ rest)) :
    InOrder pkIdx log :=
  ⟨(List.pairwise_append.mp ordered.follows).1,
    fun r mem => ordered.positive r (List.mem_append_left rest mem)⟩

/-- The view finds what the log means. -/
theorem mem_currentView (ordered : InOrder pkIdx log) :
    r ∈ currentView pkIdx log ↔ logTable pkIdx log (r.key pkIdx) = some r := by
  induction log using List.reverseRecOn generalizing r with
  | nil =>
      rw [currentView, mem_newestRows ordered.ranked]
      exact iff_of_false (fun mem => nomatch mem.2.1) nofun
  | append_singleton log x ih =>
      have front := ordered.front
      have behind : ∀ b ∈ log, LogRow.Follows pkIdx b x := fun b mem =>
        (List.pairwise_append.mp ordered.follows).2.2 b mem x (.head [])
      rw [logTable_concat, settleRow]
      cases trunc : x.isOp .truncate with
      | true =>
          rw [if_pos rfl, currentView, mem_newestRows ordered.ranked]
          refine iff_of_false (fun ⟨_, mem, past, _⟩ => ?_) nofun
          exact truncatedAt_concat_of_truncate ordered trunc mem past
      | false =>
          obtain ⟨still, past⟩ := truncatedAt_concat ordered trunc
          rw [if_neg Bool.false_ne_true, currentView, mem_newestRows ordered.ranked, still]
          by_cases same : r.key pkIdx = x.key pkIdx
          · -- the newest row of its key is `x`
            rw [same, Function.update_self]
            constructor
            · rintro ⟨-, mem, -, live, first⟩
              have r_x := first x (List.mem_append_right log (.head [])) past rfl
              have here : r = x := by
                refine (List.mem_append.mp mem).elim (fun old => ?_) List.mem_singleton.mp
                rw [(behind r old).not_before same] at r_x
                nomatch r_x
              rw [here] at live ⊢
              rw [live, if_neg Bool.false_ne_true]
            · intro held
              split at held
              · nomatch held
              · rename_i live
                obtain rfl := Option.some.inj held
                refine ⟨rfl, List.mem_append_right log (.head []), past,
                  Bool.eq_false_of_not_eq_true live, fun b mem _ key => ?_⟩
                obtain old | new := List.mem_append.mp mem
                · have order := LogRow.before_total x b
                  rwa [(behind b old).not_before key, Bool.or_false] at order
                · rw [List.mem_singleton.mp new]
                  exact LogRow.before_refl x
          · -- a row of another key decides nothing
            rw [Function.update_of_ne same, ← ih front, currentView, mem_newestRows front.ranked]
            constructor
            · rintro ⟨-, mem, above, live, first⟩
              have old : r ∈ log := (List.mem_append.mp mem).resolve_right fun new =>
                same (congrArg (LogRow.key pkIdx) (List.mem_singleton.mp new))
              exact ⟨rfl, old, above, live, fun b there => first b (List.mem_append_left _ there)⟩
            · rintro ⟨-, old, above, live, first⟩
              refine ⟨rfl, List.mem_append_left _ old, above, live, fun b mem above' key => ?_⟩
              obtain there | new := List.mem_append.mp mem
              · exact first b there above' key
              · rw [List.mem_singleton.mp new] at key
                exact absurd key.symm same

end

/-! ## Keys and rows -/

namespace LogRow

/-- The data cells of a row. -/
def cells (r : LogRow Entry) : Option (List Cell) := r.row.map Tuple.toCells

end LogRow

theorem keyCells_inj {k k' : Key} (same : keyCells k = keyCells k') : k = k' :=
  List.map_injective_iff.mpr (fun _ _ h => Cell.text.inj h) same

section

variable {l : Layout} {k : Key} {row : Tuple}

/-- A row's key columns hold its key. -/
theorem keyCells_eq (key : l.keyTexts row.toCells = some k) :
    (l.keyIdx.map fun i => (row.get i).getD .null) = keyCells k := by
  have texts := Layout.keyTexts_eq_some_iff.mp key
  rw [keyCells]
  clear key
  generalize l.keyIdx = idx at texts
  induction texts with
  | nil => rfl
  | cons here _ ih =>
      rw [List.map_cons, List.map_cons, ih, Tuple.get_eq, here]
      rfl

theorem LogRow.key_eq {r : LogRow Entry} (held : r.row = some row)
    (key : l.keyTexts row.toCells = some k) : r.key l.keyIdx = keyCells k := by
  rw [← keyCells_eq key, LogRow.key, held]
  rfl

end

/-! ## A log's table and the source's -/

/-- The rows a log leaves are the source's. -/
structure Shows {l : Layout} (T : List Cell → Option (LogRow Entry)) (S : SourceTable l) :
    Prop where
  live : ∀ k row, S.rows k = some row → ∃ r, T (keyCells k) = some r ∧ r.cells = some row
  only : ∀ cells r, T cells = some r →
    ∃ k row, cells = keyCells k ∧ S.rows k = some row ∧ r.cells = some row

namespace Shows

variable {l : Layout} {T : List Cell → Option (LogRow Entry)} {S : SourceTable l} {k : Key}

theorem empty : Shows (fun _ => none) (SourceTable.empty l) := ⟨nofun, nofun⟩

theorem put (shows_ : Shows T S) {r : LogRow Entry} {row : List Cell} (isRow : l.IsRow k row)
    (cells : r.cells = some row) :
    Shows (Function.update T (keyCells k) (some r)) (S.put k row isRow) := by
  constructor
  · intro j row' held
    rw [SourceTable.put_rows] at held
    by_cases same : j = k
    · rw [same, Function.update_self] at held
      rw [same, Function.update_self]
      exact ⟨r, rfl, cells.trans held⟩
    · rw [Function.update_of_ne same] at held
      rw [Function.update_of_ne fun eq => same (keyCells_inj eq)]
      exact shows_.live j row' held
  · intro kc r' held
    by_cases same : kc = keyCells k
    · rw [same, Function.update_self] at held
      refine ⟨k, row, same, ?_, Option.some.inj held ▸ cells⟩
      rw [SourceTable.put_rows, Function.update_self]
    · rw [Function.update_of_ne same] at held
      obtain ⟨j, row', rfl, there, cells'⟩ := shows_.only kc r' held
      refine ⟨j, row', rfl, ?_, cells'⟩
      rw [SourceTable.put_rows, Function.update_of_ne fun eq => same (congrArg keyCells eq), there]

theorem erase (shows_ : Shows T S) (k : Key) :
    Shows (Function.update T (keyCells k) none) (S.erase k) := by
  constructor
  · intro j row' held
    rw [SourceTable.erase_rows] at held
    by_cases same : j = k
    · rw [same, Function.update_self] at held
      cases held
    · rw [Function.update_of_ne same] at held
      rw [Function.update_of_ne fun eq => same (keyCells_inj eq)]
      exact shows_.live j row' held
  · intro kc r' held
    by_cases same : kc = keyCells k
    · rw [same, Function.update_self] at held
      cases held
    · rw [Function.update_of_ne same] at held
      obtain ⟨j, row', rfl, there, cells'⟩ := shows_.only kc r' held
      refine ⟨j, row', rfl, ?_, cells'⟩
      rw [SourceTable.erase_rows, Function.update_of_ne fun eq =>
        same (congrArg keyCells eq), there]

end Shows

/-! ## What a window's records settle -/

namespace Changes

/-- The entries the log gets for some records. -/
def entriesOf (events : List Change) (rows : List (Option Tuple)) : List Entry :=
  events.zipWith (fun e row => ⟨e.op, row.or e.row⟩) rows

section

variable {l : Layout} {S₀ S S' : SourceTable l} {keys : List Key} {cols : List Nat}
  {base : Key → Option (List Value)} {carry : Carry} {truncated : Bool}

/-- A whole image settles at its key. -/
theorem settle_image {T : List Cell → Option (LogRow Entry)} {r : LogRow Entry} {op : ChangeOp}
    {row : Tuple} {k : Key} (entry : r.entry = .event ⟨op, some row⟩)
    (kind : op = .insert ∨ op = .update) (key : l.keyTexts row.toCells = some k) :
    settleRow l.keyIdx T r = Function.update T (keyCells k) (some r) ∧
      r.cells = some row.toCells := by
  have held : r.row = some row := by rw [LogRow.row, entry]
  have live : r.isOp .truncate = false ∧ r.isOp .delete = false := by
    rw [LogRow.isOp, LogRow.isOp, entry]
    obtain rfl | rfl := kind <;> exact ⟨rfl, rfl⟩
  refine ⟨?_, by rw [LogRow.cells, held, Option.map_some]⟩
  rw [settleRow, live.1, live.2, if_neg Bool.false_ne_true, if_neg Bool.false_ne_true,
    LogRow.key_eq held key]

theorem settle_delete {T : List Cell → Option (LogRow Entry)} {r : LogRow Entry} {old : Tuple}
    {k : Key} (entry : r.entry = .event ⟨.delete, some old⟩)
    (key : l.keyTexts old.toCells = some k) :
    settleRow l.keyIdx T r = Function.update T (keyCells k) none := by
  have held : r.row = some old := by rw [LogRow.row, entry]
  have dead : r.isOp .truncate = false ∧ r.isOp .delete = true := by
    rw [LogRow.isOp, LogRow.isOp, entry]
    exact ⟨rfl, rfl⟩
  rw [settleRow, dead.1, dead.2, if_neg Bool.false_ne_true, if_pos rfl, LogRow.key_eq held key]

/-- How an op's records resolve and settle. -/
def Settles (S₀ S S' : SourceTable l) (cols : List Nat) (base : Key → Option (List Value))
    (carry : Carry) (truncated : Bool) (events : List Change) : Prop :=
  ∃ rows carry' truncated',
    (∀ rest, resolveFrom l cols base carry truncated (events ++ rest) =
      (resolveFrom l cols base carry' truncated' rest).map (rows ++ ·)) ∧
    rows.length = events.length ∧ Carried S₀ S' carry' truncated' ∧
    ∀ T, Shows T S → ∀ rs : List (LogRow Entry),
      rs.map LogRow.entry = (entriesOf events rows).map .event →
        Shows (rs.foldl (settleRow l.keyIdx) T) S'

/-- An image rebuilt to the row just put settles it. -/
theorem shows_image {T : List Cell → Option (LogRow Entry)} (shows_ : Shows T S) {op : ChangeOp}
    {row : Tuple} {movedFrom : Option Key} {rebuilt : Option Tuple} {k : Key} {cells : List Cell}
    (kind : op = .insert ∨ op = .update) (isRow : l.IsRow k cells)
    (key : l.keyTexts row.toCells = some k)
    (done : Rebuilt (S.put k cells isRow) ⟨op, some row, movedFrom⟩ rebuilt)
    {rs : List (LogRow Entry)}
    (landed : rs.map LogRow.entry =
      (entriesOf [⟨op, some row, movedFrom⟩] [rebuilt]).map .event) :
    Shows (rs.foldl (settleRow l.keyIdx) T) (S.put k cells isRow) := by
  obtain ⟨r, rfl, entry⟩ := List.map_eq_singleton_iff.mp landed
  have held : (S.put k cells isRow).rows (keyOf row l.keyIdx) =
      some (rebuilt.getD row).toCells := by
    obtain rfl | rfl := kind <;> exact done.2
  rw [keyOf_eq key, SourceTable.put_rows, Function.update_self] at held
  obtain rfl := Option.some.inj held
  have logged : r.entry = .event ⟨op, some (rebuilt.getD row)⟩ := by
    rw [entry]
    cases rebuilt <;> rfl
  obtain ⟨settled, there⟩ := settle_image logged kind isRow.key
  rw [List.foldl_cons, List.foldl_nil, settled]
  exact shows_.put isRow there

/-- An op's records, rebuilt, settle the source's new table over its old one. -/
theorem shows_records {T : List Cell → Option (LogRow Entry)} (shows_ : Shows T S) {op : StreamOp}
    (legal : S.step? op = some S') {rows : List (Option Tuple)}
    (rebuilt : List.Forall₂ (Rebuilt S') (records l op) rows) {rs : List (LogRow Entry)}
    (landed : rs.map LogRow.entry = (entriesOf (records l op) rows).map .event) :
    Shows (rs.foldl (settleRow l.keyIdx) T) S' := by
  cases op with
  | insert row =>
      obtain ⟨k, isRow, -, rfl⟩ := SourceTable.step?_insert legal
      cases rebuilt with
      | cons done none =>
          cases none
          exact shows_image shows_ (.inl rfl) isRow isRow.key done landed
  | update old row full =>
      obtain ⟨j, cur, k, isRow, oldKey, held, -, -, rfl⟩ := SourceTable.step?_update legal
      obtain ⟨-, key⟩ := imageOf_spec oldKey (S.keyed j cur held) isRow
      obtain ⟨rfl, written⟩ | ⟨o, rfl, written⟩ := records_update full oldKey key
      · rw [written] at rebuilt landed
        have target : (S.erase j).put j _ isRow = S.put j _ isRow := by
          refine sourceTable_ext ?_
          rw [SourceTable.put_rows, SourceTable.put_rows, SourceTable.erase_rows,
            Function.update_idem]
        rw [target] at rebuilt ⊢
        cases rebuilt with
        | cons done none =>
            cases none
            exact shows_image shows_ (.inr rfl) isRow key done landed
      · rw [written] at rebuilt landed
        cases rebuilt with
        | cons died rebuilt =>
            cases rebuilt with
            | cons done none =>
                cases none
                obtain ⟨r, rs, rfl, entry, landed⟩ := List.map_eq_cons_iff.mp landed
                rw [died] at entry
                rw [List.foldl_cons, settle_delete entry oldKey]
                exact shows_image (shows_.erase j) (.inr rfl) isRow key done landed
  | delete old =>
      obtain ⟨k, cur, key, held, rfl⟩ := SourceTable.step?_delete legal
      cases rebuilt with
      | cons died none =>
          cases none
          obtain ⟨r, rfl, entry⟩ := List.map_eq_singleton_iff.mp landed
          rw [died] at entry
          rw [List.foldl_cons, List.foldl_nil, settle_delete entry key]
          exact shows_.erase k
  | truncate =>
      obtain rfl : SourceTable.empty l = S' := Option.some.inj legal
      cases rebuilt with
      | cons cleared none =>
          cases none
          obtain ⟨r, rfl, entry⟩ := List.map_eq_singleton_iff.mp landed
          have cleared : r.isOp .truncate = true := by rw [LogRow.isOp, entry]; rfl
          rw [List.foldl_cons, List.foldl_nil, settleRow, if_pos cleared]
          exact .empty

/-- One legal op, whatever it is. -/
theorem settles_step (carried : Carried S₀ S carry truncated) (based : Based S₀ keys cols base)
    {op : StreamOp} (legal : S.step? op = some S')
    (asked : ∀ e ∈ records l op, Asked l keys cols e) :
    Settles S₀ S S' cols base carry truncated (records l op) := by
  obtain ⟨rows, carry', truncated', resolved, carried', rebuilt⟩ :=
    rebuilds_step carried based legal asked
  exact ⟨rows, carry', truncated', resolved, rebuilt.length_eq.symm, carried',
    fun T shows_ rs landed => shows_records shows_ legal rebuilt landed⟩

theorem settles_nil (carried : Carried S₀ S carry truncated) :
    Settles S₀ S S cols base carry truncated [] := by
  refine ⟨[], carry, truncated, fun rest => ?_, rfl, carried, fun T shows_ rs landed => ?_⟩
  · rw [List.nil_append]
    cases resolveFrom l cols base carry truncated rest <;> rfl
  · rw [List.map_eq_nil_iff.mp landed]
    exact shows_

/-- A legal window resolves and settles the source's table. -/
theorem settles_run (carried : Carried S₀ S carry truncated) (based : Based S₀ keys cols base)
    {ops : List StreamOp} (legal : S.run? ops = some S')
    (asked : ∀ e ∈ ops.flatMap (records l), Asked l keys cols e) :
    Settles S₀ S S' cols base carry truncated (ops.flatMap (records l)) := by
  induction ops generalizing S carry truncated with
  | nil =>
      obtain rfl : S = S' := Option.some.inj legal
      exact settles_nil carried
  | cons op ops ih =>
      obtain ⟨S₁, first, rest⟩ := Option.bind_eq_some_iff.mp legal
      obtain ⟨rows, carry₁, truncated₁, resolved, long, carried₁, settled⟩ :=
        settles_step carried based first fun e mem => asked e (List.mem_append_left _ mem)
      obtain ⟨rows', carry', truncated', resolved', long', carried', settled'⟩ :=
        ih carried₁ rest fun e mem => asked e (List.mem_append_right _ mem)
      refine ⟨rows ++ rows', carry', truncated', fun tail => ?_, ?_, carried',
        fun T shows_ rs landed => ?_⟩
      · rw [List.flatMap_cons, List.append_assoc, resolved, resolved']
        cases resolveFrom l cols base carry' truncated' tail <;>
          simp only [Except.map, List.append_assoc]
      · rw [List.flatMap_cons, List.length_append, List.length_append, long, long']
      · rw [List.flatMap_cons, entriesOf, List.zipWith_append long.symm, List.map_append] at landed
        obtain ⟨rs₁, rs₂, rfl, landed₁, landed₂⟩ := List.map_eq_append_iff.mp landed
        rw [List.foldl_append]
        exact settled' _ (settled T shows_ rs₁ landed₁) rs₂ landed₂

end

/-- A record with nothing to rebuild. -/
def Plain (e : Change) : Prop := e.op ≠ .delete → ∀ row, e.row = some row → row.hasToast = false

theorem land_plain {c : Changes} (plain : c.masked = false → ∀ e ∈ c.events, Plain e) (pos : Nat)
    (op : StreamOp) (unmasked : (c.land pos op).masked = false) :
    ∀ e ∈ (c.land pos op).events, Plain e := by
  cases op with
  | insert row =>
      obtain ⟨clean, whole⟩ := Bool.or_eq_false_iff.mp unmasked
      intro e mem
      obtain mem | rfl := List.mem_append.mp mem |>.imp_right List.mem_singleton.mp
      · exact plain clean e mem
      · exact fun _ row' held => Option.some.inj held ▸ whole
  | update old row full =>
      have masks : (c.masked || (imageOf c.layout old row).hasToast) = false := by
        rw [← unmasked]
        cases old <;> rfl
      obtain ⟨clean, whole⟩ := Bool.or_eq_false_iff.mp masks
      intro e mem
      rw [land, update_events, List.append_assoc] at mem
      obtain mem | mem := List.mem_append.mp mem
      · exact plain clean e mem
      · obtain mem | rfl := List.mem_append.mp mem |>.imp_right List.mem_singleton.mp
        · -- the `D` half of a move is never rebuilt
          intro kind
          cases old with
          | none => cases mem
          | some o =>
              simp only [movedOff] at mem
              split at mem
              · exact absurd (congrArg Change.op (List.mem_singleton.mp mem)) kind
              · cases mem
        · exact fun _ row' held => Option.some.inj held ▸ whole
  | delete old =>
      intro e mem
      obtain mem | rfl := List.mem_append.mp mem |>.imp_right List.mem_singleton.mp
      · exact plain unmasked e mem
      · exact fun kind => absurd rfl kind
  | truncate =>
      intro e mem
      obtain mem | rfl := List.mem_append.mp mem |>.imp_right List.mem_singleton.mp
      · exact plain unmasked e mem
      · exact fun _ _ held => (by cases held)

/-- A window that notes no mask carries none. -/
theorem captured_plain {l : Layout} {ops : List StreamOp}
    (unmasked : (captured l ops).masked = false) : ∀ e ∈ (captured l ops).events, Plain e := by
  have go : ∀ (ops : List StreamOp) (c : Changes),
      (c.masked = false → ∀ e ∈ c.events, Plain e) →
        (ops.foldl (fun c op => c.land 0 op) c).masked = false →
          ∀ e ∈ (ops.foldl (fun c op => c.land 0 op) c).events, Plain e := by
    intro ops
    induction ops with
    | nil => exact fun c plain => plain
    | cons op ops ih => exact fun c plain => ih (c.land 0 op) (land_plain plain 0 op)
  exact go ops (new l) (fun _ => nofun) unmasked

/-- Whether or not a window notes a mask, its entries are its records resolved. -/
theorem changelogEntries_eq (l : Layout) (ops : List StreamOp) (log : List (LogRow Entry))
    (plan : ReplayPlan) :
    changelogEntries log plan (captured l ops) =
      ((captured l ops).resolveMasked (captured l ops).maskPlan.2
        (readBase (captured l ops).layout.keyIdx log (captured l ops).maskPlan.1
          (captured l ops).maskPlan.2 plan)).map (entriesOf (captured l ops).events) := by
  rw [changelogEntries]
  cases masked : (captured l ops).masked with
  | true => rfl
  | false => rw [resolveMasked, resolveFrom_plain (captured_plain masked)]; rfl

end Changes

/-! ## Windows onto the log -/

section

variable {l : Layout} {S₀ S S' : SourceTable l} {log : List (LogRow Entry)} {r : LogRow Entry}

theorem logTable_key {pkIdx : List Nat} {cells : List Cell}
    (held : logTable pkIdx log cells = some r) :
    r.key pkIdx = cells := by
  induction log using List.reverseRecOn with
  | nil => nomatch held
  | append_singleton log x ih =>
      rw [logTable_concat, settleRow] at held
      split at held
      · nomatch held
      · by_cases same : cells = x.key pkIdx
        · rw [same, Function.update_self] at held
          split at held
          · nomatch held
          · rw [same, Option.some.inj held]
        · rw [Function.update_of_ne same] at held
          exact ih held

/-- Every row stands before the window at `stamp`: an earlier one's, or the baseline. -/
def Earlier (stamp : Nat) (log : List (LogRow Entry)) : Prop :=
  ∀ r ∈ log, r.lsn < stamp ∨ r.lsn = stamp ∧ r.seq = 0 ∧ r.isEvent = false

/-- Every row stands before what a window at `stamp` numbers from `seqBase` up: an
earlier one's, another writer's below it, or the baseline. -/
def Precedes (stamp seqBase : Nat) (log : List (LogRow Entry)) : Prop :=
  ∀ r ∈ log, r.lsn < stamp ∨ r.lsn = stamp ∧ if r.isEvent then r.seq < seqBase else r.seq = 0

theorem Earlier.precedes {stamp : Nat} (earlier : Earlier stamp log) (seqBase : Nat) :
    Precedes stamp seqBase log := by
  intro r mem
  refine (earlier r mem).imp id fun ⟨here, zero, base⟩ => ⟨here, ?_⟩
  rw [base, if_neg Bool.false_ne_true]
  exact zero

theorem Precedes.beforeWindow {plan : ReplayPlan} (precedes : Precedes plan.stamp plan.seqBase log)
    {r : LogRow Entry} (mem : r ∈ log) : beforeWindow plan r = true := by
  refine decide_eq_true ((precedes r mem).imp id fun ⟨here, below⟩ => ⟨here, ?_⟩)
  cases isEvent : r.isEvent with
  | true =>
      rw [isEvent, if_pos rfl] at below
      exact .inl below
  | false => exact .inr rfl

theorem answers_readBase (ordered : InOrder l.keyIdx log) (shown : Shows (logTable l.keyIdx log) S)
    (plan : ReplayPlan) (precedes : Precedes plan.stamp plan.seqBase log) (keys : List Key)
    (cols : List Nat) :
    Changes.Answers S keys cols (readBase l.keyIdx log keys cols plan) := by
  intro k mem row held
  have whole : log.filter (beforeWindow plan) = log :=
    List.filter_eq_self.mpr fun r mem => precedes.beforeWindow mem
  obtain ⟨r, settled, cells⟩ := shown.live k row held
  have key := logTable_key settled
  have selected : r ∈ newestRows l.keyIdx (fun cells => cells ∈ keys.map keyCells) log := by
    refine (mem_newestRows_iff ordered.ranked).mpr ⟨?_, (mem_currentView ordered).mpr ?_⟩
    · rw [key]
      exact decide_eq_true (List.mem_map_of_mem mem)
    · rw [key, settled]
  -- the readback finds the row the log leaves at the key, and no other
  have found : (newestRows l.keyIdx (fun cells => cells ∈ keys.map keyCells) log).find?
      (fun r => r.key l.keyIdx = keyCells k) = some r := by
    cases search : (newestRows l.keyIdx (fun cells => cells ∈ keys.map keyCells) log).find?
      (fun r => r.key l.keyIdx = keyCells k) with
    | none => exact absurd (decide_eq_true key) (List.find?_eq_none.mp search r selected)
    | some r' =>
        have hit := List.find?_some search
        have key' : r'.key l.keyIdx = keyCells k := of_decide_eq_true hit
        have there' := ((mem_newestRows_iff ordered.ranked).mp (List.mem_of_find?_eq_some search)).2
        have settled' := (mem_currentView ordered).mp there'
        rw [key', settled] at settled'
        exact settled'.symm
  obtain ⟨t, data, rfl⟩ := Option.map_eq_some_iff.mp cells
  rw [readBase, if_pos mem, whole, found, Option.map_some, data]
  simp only [Option.bind_some, Tuple.get_eq]

/-- A window's rows keep the log in order. -/
theorem InOrder.append {pkIdx : List Nat} (ordered : InOrder pkIdx log) {stamp : Nat}
    (positive : 0 < stamp) {base : Nat} (precedes : Precedes stamp base log)
    (entries : List Entry) :
    InOrder pkIdx (log ++ numbered stamp base entries) := by
  constructor
  · refine List.pairwise_append.mpr ⟨ordered.follows, ?_, fun r mem r' mem' => ?_⟩
    · refine (numbered_before stamp base entries).imp_of_mem fun _ mem' order => ?_
      rw [LogRow.Follows, if_pos (mem_numbered mem').2.2.2]
      exact .inl (Prod.Lex.toLex_lt_toLex.mpr order)
    · obtain ⟨lsn, low, -, isEvent⟩ := mem_numbered mem'
      rw [LogRow.Follows, if_pos isEvent, LogRow.pos, LogRow.pos, Prod.Lex.toLex_lt_toLex, lsn]
      obtain past | ⟨here, below⟩ := precedes r mem
      · exact .inl (.inl past)
      · split at below
        · exact .inl (.inr ⟨here, below.trans_le low⟩)
        · rename_i baseline
          obtain level | above := Nat.eq_zero_or_pos r'.seq
          · exact .inr ⟨by rw [here, below, level], Bool.eq_false_iff.mpr baseline⟩
          · exact .inl (.inr ⟨here, below ▸ above⟩)
  · intro r mem
    obtain mem | mem := List.mem_append.mp mem
    · exact ordered.positive r mem
    · rw [LogRow.pos, Prod.Lex.toLex_lt_toLex, (mem_numbered mem).1]
      exact .inl positive

/-- One legal window lands, and its rows settle the source's table. -/
theorem window_lands (ordered : InOrder l.keyIdx log) (shown : Shows (logTable l.keyIdx log) S)
    {w : LoggedWindow} (positive : 0 < w.stamp) (precedes : Precedes w.stamp w.seqBase log)
    (legal : S.run? w.ops = some S') :
    ∃ entries, entries.length = (Changes.captured l w.ops).events.length ∧
      changelogEntries log (w.plan (Changes.captured l w.ops).events.length)
        (Changes.captured l w.ops) = .ok entries ∧
      changelogBody (w.plan (Changes.captured l w.ops).events.length) entries =
        numbered w.stamp w.seqBase entries ∧
      InOrder l.keyIdx (log ++ numbered w.stamp w.seqBase entries) ∧
      Shows (logTable l.keyIdx (log ++ numbered w.stamp w.seqBase entries)) S' := by
  obtain ⟨events, layout⟩ := Changes.captured_events l w.ops
  have carried : Changes.Carried S S (fun _ _ => none) false :=
    fun k row held => .inr ⟨fun _ => rfl, rfl, held⟩
  have answers := answers_readBase ordered shown (w.plan (Changes.captured l w.ops).events.length)
    precedes (Changes.captured l w.ops).maskPlan.1 (Changes.captured l w.ops).maskPlan.2
  obtain ⟨rows, carry', truncated', resolved, long, -, settled⟩ :=
    Changes.settles_run carried answers.based legal fun e mem => by
      have asked := Changes.asked_maskPlan (Changes.captured l w.ops) (events ▸ mem)
      rwa [layout] at asked
  have whole := resolved []
  rw [List.append_nil, Changes.resolveFrom, Except.map, List.append_nil] at whole
  have count : (Changes.entriesOf (w.ops.flatMap (Changes.records l)) rows).length =
      (w.ops.flatMap (Changes.records l)).length := by
    rw [Changes.entriesOf, List.length_zipWith, long, Nat.min_self]
  refine ⟨Changes.entriesOf (w.ops.flatMap (Changes.records l)) rows, events ▸ count, ?_, ?_,
    ordered.append positive precedes _, ?_⟩
  · rw [events] at whole
    rw [Changes.changelogEntries_eq, Changes.resolveMasked, layout, events, whole]
    rfl
  · rw [events]
    exact changelogBody_eq _ _ count.symm (Nat.zero_le _)
  · rw [logTable, List.foldl_append]
    exact settled _ shown _ (numbered_map_entry _ _ _)

/-- A window's rows are numbered past another's at the same stamp. -/
def LoggedWindow.Below (l : Layout) (w w' : LoggedWindow) : Prop :=
  w.stamp < w'.stamp ∨
    w.stamp = w'.stamp ∧ w.seqBase + (Changes.captured l w.ops).events.length ≤ w'.seqBase

theorem precedes_numbered {w w' : LoggedWindow} (below : w.Below l w') {entries : List Entry}
    (count : entries.length = (Changes.captured l w.ops).events.length) :
    Precedes w'.stamp w'.seqBase (numbered w.stamp w.seqBase entries) := by
  intro r mem
  obtain ⟨lsn, -, high, isEvent⟩ := mem_numbered mem
  rw [lsn, isEvent, if_pos rfl]
  exact below.imp id fun ⟨same, clear⟩ => ⟨same, high.trans_le (count ▸ clear)⟩

/-- Windows in order land one after the other. -/
theorem windows_land {ws : List LoggedWindow} (ordered : InOrder l.keyIdx log)
    (shown : Shows (logTable l.keyIdx log) S) (positive : ∀ w ∈ ws, 0 < w.stamp)
    (rising : ws.Pairwise (LoggedWindow.Below l))
    (precedes : ∀ w ∈ ws, Precedes w.stamp w.seqBase log)
    (legal : S.run? (ws.flatMap LoggedWindow.ops) = some S') :
    ∃ log', logWindows l log ws = .ok log' ∧ InOrder l.keyIdx log' ∧
      Shows (logTable l.keyIdx log') S' ∧
      ∀ w', (∀ w ∈ ws, w.Below l w') → Precedes w'.stamp w'.seqBase log →
        Precedes w'.stamp w'.seqBase log' := by
  induction ws generalizing S log with
  | nil =>
      obtain rfl : S = S' := Option.some.inj legal
      exact ⟨log, rfl, ordered, shown, fun _ _ kept => kept⟩
  | cons w ws ih =>
      rw [List.flatMap_cons, SourceTable.run?_append] at legal
      obtain ⟨S₁, first, rest⟩ := Option.bind_eq_some_iff.mp legal
      obtain ⟨behind, rising⟩ := List.pairwise_cons.mp rising
      obtain ⟨entries, count, captured, body, ordered₁, shown₁⟩ :=
        window_lands ordered shown (positive w (.head ws)) (precedes w (.head ws)) first
      have after : ∀ w', w.Below l w' → Precedes w'.stamp w'.seqBase log →
          Precedes w'.stamp w'.seqBase (log ++ numbered w.stamp w.seqBase entries) := by
        intro w' below kept r there
        obtain old | new := List.mem_append.mp there
        · exact kept r old
        · exact precedes_numbered below count r new
      obtain ⟨log', landed, ordered', shown', bounded⟩ := ih ordered₁ shown₁
        (fun w' mem => positive w' (.tail w mem)) rising
        (fun w' mem => after w' (behind w' mem) (precedes w' (.tail w mem))) rest
      refine ⟨log', ?_, ordered', shown', fun w' below kept =>
        bounded w' (fun v mem => below v (.tail w mem)) (after w' (below w (.head ws)) kept)⟩
      simp only [logWindows, captured, Except.bind, body, landed]

/-! ## The view of the stored log -/

/-- A bulk load of a table: its rows, each once. -/
structure Snapshot (S : SourceTable l) (rows : List Tuple) : Prop where
  held : ∀ row ∈ rows, ∃ k, S.rows k = some row.toCells
  all : ∀ k cells, S.rows k = some cells → ∃ row ∈ rows, row.toCells = cells
  once : (rows.map Tuple.toCells).Nodup

/-- The rows a query selects are a table's, each once. -/
def Selects (S : SourceTable l) (selected : List (LogRow Entry)) : Prop :=
  (selected.map LogRow.cells).Nodup ∧
    ∀ cells, cells ∈ selected.map LogRow.cells ↔ ∃ k row, cells = some row ∧ S.rows k = some row

theorem truncatedAt_perm {stored : List (LogRow Entry)} (perm : stored.Perm log) :
    truncatedAt stored = truncatedAt log := by
  have le {xs ys : List (LogRow Entry)} (perm : xs.Perm ys) : truncatedAt xs ≤ truncatedAt ys :=
    truncatedAt_le.mpr ⟨(truncatedAt_le.mp le_rfl).1, fun r mem trunc =>
      pos_le_truncatedAt (perm.mem_iff.mp mem) trunc⟩
  exact le_antisymm (le perm) (le perm.symm)

/-- The view does not depend on the order the table's rows are stored in. -/
theorem mem_currentView_perm {pkIdx : List Nat} {stored : List (LogRow Entry)}
    (perm : stored.Perm log) (ordered : InOrder pkIdx log) :
    r ∈ currentView pkIdx stored ↔ r ∈ currentView pkIdx log := by
  have ranked : Ranked pkIdx stored := fun a ha b hb =>
    ordered.ranked a (perm.mem_iff.mp ha) b (perm.mem_iff.mp hb)
  rw [currentView, currentView, mem_newestRows ranked, mem_newestRows ordered.ranked,
    truncatedAt_perm perm]
  simp only [perm.mem_iff]

theorem currentView_keys_nodup (pkIdx : List Nat) (log : List (LogRow Entry)) :
    ((currentView pkIdx log).map (LogRow.key pkIdx)).Nodup := by
  rw [currentView, newestRows]
  exact topPerKey_keys_nodup.sublist (List.filter_sublist.map _)

theorem selects_currentView (ordered : InOrder l.keyIdx log)
    (shown : Shows (logTable l.keyIdx log) S) {stored : List (LogRow Entry)}
    (perm : stored.Perm log) : Selects S (currentView l.keyIdx stored) := by
  have settled {r : LogRow Entry} : r ∈ currentView l.keyIdx stored ↔
      logTable l.keyIdx log (r.key l.keyIdx) = some r :=
    (mem_currentView_perm perm ordered).trans (mem_currentView ordered)
  constructor
  · -- a row's key is a function of its cells
    have keys : ∀ r ∈ currentView l.keyIdx stored,
        r.key l.keyIdx = l.keyIdx.map fun i => (r.cells.bind (·[i]?)).getD .null := by
      intro r _
      rw [LogRow.key, LogRow.cells]
      cases r.row <;> simp
    have distinct := currentView_keys_nodup l.keyIdx stored
    rw [List.map_congr_left keys] at distinct
    refine List.Nodup.of_map (fun cells : Option (List Cell) =>
      l.keyIdx.map fun i => (cells.bind (·[i]?)).getD .null) ?_
    rwa [List.map_map]
  · intro cells
    constructor
    · intro mem
      obtain ⟨r, there, rfl⟩ := List.mem_map.mp mem
      obtain ⟨k, row, -, held, same⟩ := shown.only _ r (settled.mp there)
      exact ⟨k, row, same, held⟩
    · rintro ⟨k, row, rfl, held⟩
      obtain ⟨r, there, same⟩ := shown.live k row held
      refine List.mem_map.mpr ⟨r, settled.mpr ?_, same⟩
      rw [logTable_key there, there]

/-- BigQuery's newest `T` is ClickHouse's. -/
theorem Bq.truncated_eq (log : List (LogRow Entry)) :
    truncatedAt log = toLex (Bq.truncatedLsn log, Bq.truncatedSeq log) := by
  have lsns := foldl_max_le.mp (le_refl (Bq.truncatedLsn log))
  have seqs := foldl_max_le.mp (le_refl (Bq.truncatedSeq log))
  refine le_antisymm (truncatedAt_le.mpr ⟨?_, fun r mem trunc => ?_⟩) ?_
  · rw [Prod.Lex.toLex_le_toLex]
    obtain zero | above := Nat.eq_zero_or_pos (Bq.truncatedLsn log)
    · exact .inr ⟨zero.symm, Nat.zero_le _⟩
    · exact .inl above
  · rw [LogRow.pos, Prod.Lex.toLex_le_toLex]
    have low := lsns.2 r.lsn (List.mem_map_of_mem (List.mem_filter.mpr ⟨mem, trunc⟩))
    refine (Nat.lt_or_eq_of_le low).imp id fun here => ⟨here, seqs.2 r.seq ?_⟩
    exact List.mem_map_of_mem (List.mem_filter.mpr ⟨mem, decide_eq_true ⟨trunc, here⟩⟩)
  · -- each bound is a `T` row's, or 0
    obtain zero | top := foldl_max_mem ((log.filter fun r => r.isOp .truncate ∧
      r.lsn = Bq.truncatedLsn log).map LogRow.seq) 0
    · have none : Bq.truncatedSeq log = 0 := zero
      obtain bottom | top := foldl_max_mem ((log.filter (LogRow.isOp .truncate)).map LogRow.lsn) 0
      · have level : Bq.truncatedLsn log = 0 := bottom
        rw [none, level]
        exact (truncatedAt_le.mp le_rfl).1
      · obtain ⟨r, mem, lsn⟩ := List.mem_map.mp top
        refine le_trans ?_ (pos_le_truncatedAt (List.mem_filter.mp mem).1
          (List.mem_filter.mp mem).2)
        rw [none, LogRow.pos, Prod.Lex.toLex_le_toLex]
        exact .inr ⟨lsn.symm, Nat.zero_le _⟩
    · obtain ⟨r, mem, seq⟩ := List.mem_map.mp top
      obtain ⟨there, kind⟩ := List.mem_filter.mp mem
      obtain ⟨trunc, lsn⟩ := of_decide_eq_true kind
      refine le_trans (le_of_eq ?_) (pos_le_truncatedAt there trunc)
      rw [LogRow.pos, lsn, seq]
      rfl

theorem Bq.currentView_eq (pkIdx : List Nat) (log : List (LogRow Entry)) :
    Bq.currentView pkIdx log = Apitap.currentView pkIdx log := by
  have same : (log.filter fun r => Bq.truncatedLsn log < r.lsn ∨
      r.lsn = Bq.truncatedLsn log ∧ Bq.truncatedSeq log < r.seq) =
      log.filter fun r => (true : Bool) = true ∧ truncatedAt log < r.pos := by
    refine List.filter_congr fun r _ => decide_eq_decide.mpr ?_
    rw [Bq.truncated_eq, LogRow.pos, Prod.Lex.toLex_lt_toLex]
    exact ⟨fun past => ⟨rfl, past.imp id fun p => ⟨p.1.symm, p.2⟩⟩,
      fun ⟨_, past⟩ => past.imp id fun p => ⟨p.1.symm, p.2⟩⟩
  rw [Bq.currentView, same]
  rfl

theorem baseline_inOrder {lsn : Nat} {rows : List Tuple} (slot : 0 < lsn)
    (snapshot : Snapshot S rows) :
    InOrder l.keyIdx (baselineRows lsn rows) ∧
      Shows (logTable l.keyIdx (baselineRows lsn rows)) S := by
  have keyed {row : Tuple} {k : Key} (held : S.rows k = some row.toCells) :
      (⟨lsn, 0, .baseline row⟩ : LogRow Entry).key l.keyIdx = keyCells k :=
    LogRow.key_eq rfl (S.keyed k _ held).key
  have ordered : InOrder l.keyIdx (baselineRows lsn rows) := by
    refine ⟨List.pairwise_map.mpr ?_, fun r mem => ?_⟩
    · refine (List.pairwise_map.mp snapshot.once).imp_of_mem fun {a b} ha hb apart => ?_
      refine ⟨rfl, rfl, fun same => apart ?_⟩
      obtain ⟨k, held⟩ := snapshot.held a ha
      obtain ⟨k', held'⟩ := snapshot.held b hb
      rw [keyed held, keyed held'] at same
      rw [keyCells_inj same, held'] at held
      exact (Option.some.inj held).symm
    · obtain ⟨row, -, rfl⟩ := List.mem_map.mp mem
      exact Prod.Lex.toLex_lt_toLex.mpr (.inl slot)
  refine ⟨ordered, ⟨fun k row held => ?_, fun cells r settled => ?_⟩⟩
  · obtain ⟨row, mem, rfl⟩ := snapshot.all k row held
    have there : (⟨lsn, 0, .baseline row⟩ : LogRow Entry) ∈ baselineRows lsn rows :=
      List.mem_map_of_mem mem
    have selected : (⟨lsn, 0, .baseline row⟩ : LogRow Entry) ∈
        currentView l.keyIdx (baselineRows lsn rows) := by
      refine (mem_newestRows ordered.ranked).mpr ⟨rfl, there, ?_, rfl, fun b mem _ _ => ?_⟩
      · obtain zero | ⟨t, mem, trunc, -⟩ := truncatedAt_mem (baselineRows lsn rows)
        · rw [zero]
          exact ordered.positive _ there
        · obtain ⟨_, -, rfl⟩ := List.mem_map.mp mem
          nomatch trunc
      · obtain ⟨_, -, rfl⟩ := List.mem_map.mp mem
        exact decide_eq_true (.inr ⟨rfl, nofun⟩)
    exact ⟨_, keyed held ▸ (mem_currentView ordered).mp selected, rfl⟩
  · have selected : r ∈ currentView l.keyIdx (baselineRows lsn rows) := by
      rw [mem_currentView ordered, logTable_key settled, settled]
    obtain ⟨row, mem, rfl⟩ := List.mem_map.mp ((mem_newestRows ordered.ranked).mp selected).2.1
    obtain ⟨k, held⟩ := snapshot.held row mem
    exact ⟨k, row.toCells, (logTable_key settled).symm.trans (keyed held), held, rfl⟩

/-- `<table>__current` is the source's table: over the bootstrap's baseline and any
windows of legal events, in whatever order the log's rows are stored, what either
engine's view selects is what the source holds after the last event. -/
theorem currentView_is_source {lsn : Nat} {rows : List Tuple} {windows : List LoggedWindow}
    (slot : 0 < lsn) (snapshot : Snapshot S rows) (first : ∀ w ∈ windows, lsn ≤ w.stamp)
    (rising : windows.Pairwise (·.stamp < ·.stamp))
    (legal : S.run? (windows.flatMap LoggedWindow.ops) = some S') :
    ∃ log, logWindows l (baselineRows lsn rows) windows = .ok log ∧
      ∀ stored : List (LogRow Entry), stored.Perm log →
        Selects S' (currentView l.keyIdx stored) ∧ Selects S' (Bq.currentView l.keyIdx stored) := by
  obtain ⟨ordered, shown⟩ := baseline_inOrder slot snapshot
  have earlier : ∀ w ∈ windows, Earlier w.stamp (baselineRows lsn rows) := by
    intro w mem r there
    obtain ⟨row, -, rfl⟩ := List.mem_map.mp there
    exact (Nat.lt_or_eq_of_le (first w mem)).imp id fun same => ⟨same, rfl, rfl⟩
  obtain ⟨log, landed, ordered', shown', -⟩ := windows_land ordered shown
    (fun w mem => Nat.lt_of_lt_of_le slot (first w mem)) (rising.imp fun lt => .inl lt)
    (fun w mem => (earlier w mem).precedes w.seqBase) legal
  refine ⟨log, landed, fun stored perm => ?_⟩
  rw [Bq.currentView_eq]
  exact ⟨selects_currentView ordered' shown' perm, selects_currentView ordered' shown' perm⟩

end

namespace Sample

/-- The move and the reuse in the first window, at the baseline's own stamp, and the
moved row's delete in the next one. -/
def windows : List LoggedWindow :=
  [⟨100, 0, moveThenReuse.map Prod.snd⟩, ⟨110, 0, [.delete (image 2 10)]⟩]

theorem snapshot : Snapshot one [image 1 10] := by
  constructor
  · intro row mem
    rw [List.mem_singleton.mp mem]
    exact ⟨key 1, rfl⟩
  · intro k cells held
    rw [one, SourceTable.put_rows] at held
    by_cases same : k = key 1
    · rw [same, Function.update_self] at held
      exact ⟨image 1 10, .head [], Option.some.inj held⟩
    · rw [Function.update_of_ne same] at held
      nomatch held
  · exact List.nodup_singleton _

end Sample

/-- The log of the windows above shows the table with the new row alone. -/
theorem currentView_is_source_move :
    ∃ log, logWindows Sample.layout (baselineRows 100 [Sample.image 1 10]) Sample.windows =
      .ok log ∧
      ∀ stored : List (LogRow Entry), stored.Perm log →
        Selects ((Sample.one.run? (Sample.windows.flatMap LoggedWindow.ops)).get (by decide))
            (currentView Sample.layout.keyIdx stored) ∧
          Selects ((Sample.one.run? (Sample.windows.flatMap LoggedWindow.ops)).get (by decide))
            (Bq.currentView Sample.layout.keyIdx stored) :=
  currentView_is_source (by decide) Sample.snapshot (by decide) (by decide) (Option.some_get _).symm

end Apitap
