import Apitap.Logbased.CurrentTable
import Apitap.Logbased.Readback

/-!
# The readback sees the table before the window

What dead attempts of a window left at its stamp is filtered out by its first sequence;
the rows that stay are the log the window started from, so both engines' statements
select each asked key's row of the source's table. However the keys are cut, the slots
lead each row back to its key. A BigQuery answer is read to the end of its first page.
-/

namespace Apitap

open Changes (Value)

/-! ## Cutting the keys -/

theorem Bq.flatten_cut (head : Nat) (len : Nat × Key → Nat) (rows : List (Nat × Key)) (size : Nat)
    (rs : List (Nat × Key)) : (cut head len rows size rs).flatten = rows ++ rs := by
  induction rs generalizing rows size with
  | nil => simp [cut]
  | cons r rs ih =>
      rw [cut]
      split
      · rw [List.flatten_cons, ih, List.singleton_append]
      · rw [ih, List.append_assoc, List.singleton_append]

/-- The slices of the ranges are the keys, in order. -/
theorem Ch.flatten_slices (keys : List Key) {cap maxItems start i sum : Nat} {lens : List Nat}
    (opened : start ≤ i) (count : i + lens.length = keys.length) :
    ((chunkFrom cap maxItems start i sum lens).map (slice keys)).flatten = keys.drop start := by
  have closed : slice keys (start, i) ++ keys.drop i = keys.drop start := by
    rw [slice]
    have split := List.take_append_drop i keys
    conv => rhs; rw [← split]
    rw [List.drop_append_of_le_length]
    rw [List.length_take]
    omega
  induction lens generalizing start i sum with
  | nil =>
      rw [List.length_nil, Nat.add_zero] at count
      rw [count, List.drop_length, List.append_nil] at closed
      rw [chunkFrom]
      split
      · rw [List.map_singleton, List.flatten_singleton, count, closed]
      · rw [show start = keys.length by omega, List.drop_length]
        rfl
  | cons n lens ih =>
      rw [List.length_cons] at count
      rw [chunkFrom]
      have reach (start : Nat) (opened : start ≤ i + 1) :
          slice keys (start, i + 1) ++ keys.drop (i + 1) = keys.drop start := by
        rw [slice]
        have split := List.take_append_drop (i + 1) keys
        conv => rhs; rw [← split]
        rw [List.drop_append_of_le_length]
        rw [List.length_take]
        omega
      split
      · rw [List.map_cons, List.flatten_cons, ih (Nat.le_succ i) (by omega) (reach i (by omega)),
          closed]
      · exact ih (by omega) (by omega) (reach start (by omega))

/-! ## The rows before the window -/

/-- The table a window's attempt finds: the log the window started from, and what dead
attempts of it left at the stamp from its first sequence on, in whatever order. -/
def Attempted (plan : ReplayPlan) (log table : List (LogRow Entry)) : Prop :=
  ∃ dead : List (LogRow Entry), table.Perm (log ++ dead) ∧
    ∀ r ∈ dead, r.isEvent = true ∧ r.lsn = plan.stamp ∧ plan.seqBase ≤ r.seq

/-- The log a window starts from, and the source's table it shows. -/
structure StartsFrom {l : Layout} (plan : ReplayPlan) (log : List (LogRow Entry))
    (S : SourceTable l) : Prop where
  ordered : InOrder l.keyIdx log
  shown : Shows (logTable l.keyIdx log) S
  precedes : Precedes plan.stamp plan.seqBase log

/-- What a readback is for: the asked columns of the row at each asked key. -/
def before {l : Layout} (S : SourceTable l) (keys : List Key) (cols : List Nat) : Base := fun k =>
  if k ∈ keys then
    (S.rows k).map fun row => cols.map fun i => (row[i]?.bind Changes.valueOf).getD none
  else none

theorem answers_before {l : Layout} (S : SourceTable l) (keys : List Key) (cols : List Nat) :
    Changes.Answers S keys cols (before S keys cols) := by
  intro k mem row held
  rw [before, if_pos mem, held, Option.map_some]

section

variable {l : Layout} {S : SourceTable l} {plan : ReplayPlan} {log table : List (LogRow Entry)}
  {keys : List Key} {cols : List Nat}

/-- The filter keeps the log the window started from. -/
theorem perm_before (precedes : Precedes plan.stamp plan.seqBase log)
    (attempted : Attempted plan log table) : (table.filter (beforeWindow plan)).Perm log := by
  obtain ⟨dead, perm, after⟩ := attempted
  have kept : (log ++ dead).filter (beforeWindow plan) = log := by
    rw [List.filter_append, List.filter_eq_self.mpr fun r mem => precedes.beforeWindow mem,
      List.filter_eq_nil_iff.mpr, List.append_nil]
    intro r mem earlier
    obtain ⟨isEvent, here, above⟩ := after r mem
    obtain past | ⟨-, low | baseline⟩ := of_decide_eq_true earlier
    · omega
    · omega
    · exact Bool.noConfusion (isEvent.symm.trans baseline)
  exact kept ▸ perm.filter _

theorem ranked_before (starts : StartsFrom plan log S) (attempted : Attempted plan log table) :
    Ranked l.keyIdx (table.filter (beforeWindow plan)) := by
  have perm := perm_before starts.precedes attempted
  exact fun a ha b hb =>
    starts.ordered.ranked a (perm.mem_iff.mp ha) b (perm.mem_iff.mp hb)

/-- The view of the rows before the window is what the log leaves at each key. -/
theorem mem_view_before (starts : StartsFrom plan log S) (attempted : Attempted plan log table)
    {r : LogRow Entry} : r ∈ currentView l.keyIdx (table.filter (beforeWindow plan)) ↔
      logTable l.keyIdx log (r.key l.keyIdx) = some r :=
  (mem_currentView_perm (perm_before starts.precedes attempted) starts.ordered).trans
    (mem_currentView starts.ordered)

theorem cellsOf_eq {r : LogRow Entry} {row : List Cell} (cells : r.cells = some row) :
    cellsOf cols r = cols.map fun i => (row[i]?.bind Changes.valueOf).getD none := by
  obtain ⟨t, held, rfl⟩ := Option.map_eq_some_iff.mp cells
  refine List.map_congr_left fun i _ => ?_
  rw [held, Option.bind_some, Tuple.get_eq]

/-- A row the log leaves at an asked key is what the readback is for. -/
theorem before_of_settled (starts : StartsFrom plan log S) {r : LogRow Entry} {k : Key}
    (asked : k ∈ keys) (key : r.key l.keyIdx = keyCells k)
    (settled : logTable l.keyIdx log (r.key l.keyIdx) = some r) :
    before S keys cols k = some (cellsOf cols r) := by
  obtain ⟨j, row, same, held, cells⟩ := starts.shown.only _ r settled
  obtain rfl := keyCells_inj (key.symm.trans same)
  rw [before, if_pos asked, held, Option.map_some, cellsOf_eq cells]

/-- And every row asked for is left there. -/
theorem settled_of_before (starts : StartsFrom plan log S) {k : Key}
    (held : before S keys cols k ≠ none) :
    k ∈ keys ∧ ∃ r, r.key l.keyIdx = keyCells k ∧
      logTable l.keyIdx log (r.key l.keyIdx) = some r := by
  rw [before] at held
  split at held
  · rename_i asked
    refine ⟨asked, ?_⟩
    cases there : S.rows k with
    | none => exact absurd (there ▸ rfl) held
    | some row =>
        obtain ⟨r, settled, -⟩ := starts.shown.live k row there
        have key := logTable_key settled
        exact ⟨r, key, key.symm ▸ settled⟩
  · exact absurd rfl held

/-! ## One statement -/

/-- The rows a ClickHouse statement selects. -/
theorem Ch.mem_readBaseChunkSql (starts : StartsFrom plan log S)
    (attempted : Attempted plan log table) {row : SlotRow} :
    row ∈ readBaseChunkSql l.keyIdx cols plan table keys ↔
      ∃ r, (∃ k ∈ keys, r.key l.keyIdx = keyCells k) ∧
        logTable l.keyIdx log (r.key l.keyIdx) = some r ∧
        row = ⟨slotOf l.keyIdx keys r, cellsOf cols r⟩ := by
  rw [readBaseChunkSql, List.mem_map]
  refine exists_congr fun r => ?_
  rw [mem_newestRows_iff (ranked_before starts attempted), mem_view_before starts attempted,
    decide_eq_true_eq, List.mem_map, and_assoc]
  constructor
  · rintro ⟨⟨k, mem, same⟩, settled, rfl⟩
    exact ⟨⟨k, mem, same.symm⟩, settled, rfl⟩
  · rintro ⟨⟨k, mem, same⟩, settled, rfl⟩
    exact ⟨⟨k, mem, same.symm⟩, settled, rfl⟩

/-- Its slot leads a row back to its key. -/
theorem Ch.slotOf_key {r : LogRow Entry} {k : Key} (mem : k ∈ keys)
    (same : r.key l.keyIdx = keyCells k) :
    (slotOf l.keyIdx keys r).bind (keys[·]?) = some k := by
  cases search : slotOf l.keyIdx keys r with
  | none =>
      have missing := List.findIdx?_eq_none_iff.mp search k mem
      exact absurd same (of_decide_eq_false missing)
  | some i =>
      obtain ⟨short, here, -⟩ := List.findIdx?_eq_some_iff_getElem.mp search
      have found := of_decide_eq_true here
      rw [Option.bind_some, List.getElem?_eq_getElem short]
      exact congrArg some (keyCells_inj (found.symm.trans same))

theorem max?_eq {xs : List Nat} (nonempty : xs ≠ []) : xs.max? = some (Bq.maxOr0 xs) := by
  obtain ⟨x, xs, rfl⟩ := List.exists_cons_of_ne_nil nonempty
  rw [List.max?_cons', Bq.maxOr0, List.foldl_cons, Nat.zero_max]

/-- BigQuery's bound spelled out is the view's, for every row past the first position. -/
theorem Bq.pastT_eq {pre : List (LogRow Entry)} {r : LogRow Entry}
    (positive : toLex (0, 0) < r.pos) :
    pastT pre r = decide (truncatedAt pre < r.pos) := by
  by_cases none : pre.filter (LogRow.isOp .truncate) = []
  · rw [pastT, newestT, none, truncatedAt, none]
    exact (decide_eq_true positive).symm
  · have lsns : newestT pre = some (Bq.truncatedLsn pre) := by
      rw [newestT, max?_eq (by simpa using none), Bq.truncatedLsn]
    have same : (pre.filter fun r => r.isOp .truncate ∧ some r.lsn = newestT pre) =
        pre.filter fun r => r.isOp .truncate ∧ r.lsn = Bq.truncatedLsn pre := by
      rw [lsns]
      refine List.filter_congr fun r _ => ?_
      rw [decide_eq_decide, Option.some.injEq]
    have top : (pre.filter fun r => r.isOp .truncate ∧ r.lsn = Bq.truncatedLsn pre) ≠ [] := by
      have lsn : Bq.truncatedLsn pre ∈ (pre.filter (LogRow.isOp .truncate)).map LogRow.lsn :=
        List.max?_mem lsns
      obtain ⟨t, mem, here⟩ := List.mem_map.mp lsn
      obtain ⟨mem, trunc⟩ := List.mem_filter.mp mem
      exact List.ne_nil_of_mem (List.mem_filter.mpr ⟨mem, decide_eq_true ⟨trunc, here⟩⟩)
    have seqs : newestTSeq pre = some (Bq.truncatedSeq pre) := by
      rw [newestTSeq, same, max?_eq (by simpa using top), Bq.truncatedSeq]
    rw [pastT, lsns, seqs]
    refine decide_eq_decide.mpr ?_
    rw [Bq.truncated_eq, LogRow.pos, Prod.Lex.toLex_lt_toLex, Option.any_some, decide_eq_true_eq,
      eq_comm (a := r.lsn)]

/-- The rows a BigQuery statement selects. -/
theorem Bq.mem_readBaseSql (starts : StartsFrom plan log S) (attempted : Attempted plan log table)
    {sql : List (Nat × Key)} (slots : (sql.map Prod.fst).Nodup) {row : SlotRow} :
    row ∈ readBaseSql l.keyIdx cols plan table sql ↔
      ∃ slot k r, (slot, k) ∈ sql ∧ r.key l.keyIdx = keyCells k ∧
        logTable l.keyIdx log (r.key l.keyIdx) = some r ∧
        row = ⟨some slot, cellsOf cols r⟩ := by
  let pre := table.filter (beforeWindow plan)
  have ranked : Ranked l.keyIdx pre := ranked_before starts attempted
  have perm : pre.Perm log := perm_before starts.precedes attempted
  let joined := pre.flatMap fun p =>
    (sql.filter fun k => p.key l.keyIdx = keyCells k.2).map fun k => (k.1, p)
  have members {slot : Nat} {r : LogRow Entry} :
      (slot, r) ∈ joined.filter (fun x => pastT pre x.2) ↔
        r ∈ pre ∧ truncatedAt pre < r.pos ∧ ∃ k, (slot, k) ∈ sql ∧ r.key l.keyIdx = keyCells k := by
    have flat : (slot, r) ∈ joined ↔
        r ∈ pre ∧ ∃ k, (slot, k) ∈ sql ∧ r.key l.keyIdx = keyCells k := by
      rw [List.mem_flatMap]
      constructor
      · rintro ⟨p, mem, there⟩
        obtain ⟨⟨s, k⟩, hit, same⟩ := List.mem_map.mp there
        obtain ⟨rfl, rfl⟩ := Prod.mk.inj same
        obtain ⟨asked, key⟩ := List.mem_filter.mp hit
        exact ⟨mem, k, asked, of_decide_eq_true key⟩
      · rintro ⟨mem, k, asked, key⟩
        exact ⟨r, mem, List.mem_map.mpr ⟨(slot, k),
          List.mem_filter.mpr ⟨asked, decide_eq_true key⟩, rfl⟩⟩
    rw [List.mem_filter, flat]
    constructor
    · rintro ⟨⟨mem, k, asked, key⟩, past⟩
      rw [pastT_eq (starts.ordered.positive r (perm.mem_iff.mp mem))] at past
      exact ⟨mem, of_decide_eq_true past, k, asked, key⟩
    · rintro ⟨mem, past, k, asked, key⟩
      refine ⟨⟨mem, k, asked, key⟩, ?_⟩
      rw [pastT_eq (starts.ordered.positive r (perm.mem_iff.mp mem))]
      exact decide_eq_true past
  -- two rows at one slot are two rows of one key
  have one_key {slot : Nat} {k k' : Key} (mem : (slot, k) ∈ sql) (mem' : (slot, k') ∈ sql) :
      k = k' := congrArg Prod.snd (List.inj_on_of_nodup_map slots mem mem' rfl)
  have newest {slot : Nat} {r : LogRow Entry} :
      (slot, r) ∈ topPerKey Prod.fst (fun a b => LogRow.before a.2 b.2)
          (joined.filter fun x => pastT pre x.2) ↔
        (slot, r) ∈ joined.filter (fun x => pastT pre x.2) ∧
          ∀ b ∈ joined.filter (fun x => pastT pre x.2), b.1 = slot →
            LogRow.before r b.2 = true := by
    refine mem_topPerKey (fun a => LogRow.before_refl a.2)
      (fun a b c => LogRow.before_trans a.2 b.2 c.2) (fun a b => LogRow.before_total a.2 b.2) ?_
    rintro ⟨s, a⟩ ha ⟨s', b⟩ hb same ab ba
    obtain rfl : s = s' := same
    obtain ⟨inA, -, k, askedA, keyA⟩ := members.mp ha
    obtain ⟨inB, -, k', askedB, keyB⟩ := members.mp hb
    obtain rfl := one_key askedA askedB
    rw [ranked a inA b inB (keyA.trans keyB.symm) ab ba]
  have view {r : LogRow Entry} : logTable l.keyIdx log (r.key l.keyIdx) = some r ↔
      r ∈ pre ∧ truncatedAt pre < r.pos ∧ r.isOp .delete = false ∧
        ∀ b ∈ pre, truncatedAt pre < b.pos → b.key l.keyIdx = r.key l.keyIdx →
          LogRow.before r b = true := by
    rw [← mem_view_before starts attempted, Apitap.currentView, mem_newestRows ranked]
    exact and_iff_right rfl
  rw [readBaseSql, List.mem_map]
  constructor
  · rintro ⟨⟨slot, r⟩, mem, rfl⟩
    obtain ⟨mem, live⟩ := List.mem_filter.mp mem
    obtain ⟨there, first⟩ := newest.mp mem
    obtain ⟨inPre, past, k, asked, key⟩ := members.mp there
    refine ⟨slot, k, r, asked, key, view.mpr ⟨inPre, past, by simpa using live, ?_⟩, rfl⟩
    intro b inB above same
    exact first (slot, b) (members.mpr ⟨inB, above, k, asked, same.trans key⟩) rfl
  · rintro ⟨slot, k, r, asked, key, settled, rfl⟩
    obtain ⟨inPre, past, live, first⟩ := view.mp settled
    refine ⟨(slot, r), List.mem_filter.mpr ⟨newest.mpr ⟨members.mpr
      ⟨inPre, past, k, asked, key⟩, ?_⟩, by simpa using live⟩, rfl⟩
    rintro ⟨s, b⟩ hb same
    obtain rfl : s = slot := same
    obtain ⟨inB, above, k', asked', key'⟩ := members.mp hb
    obtain rfl := one_key asked asked'
    exact first b inB above (key'.trans key.symm)

/-- A statement answers each slot once. -/
theorem Bq.slots_nodup (pkIdx cols : List Nat) (plan : ReplayPlan) (table : List (LogRow Entry))
    (sql : List (Nat × Key)) : ((readBaseSql pkIdx cols plan table sql).map
      SlotRow.slot).Nodup := by
  have once (xs : List (Nat × LogRow Entry)) (nodup : (xs.map Prod.fst).Nodup) :
      ((xs.map fun x => (⟨some x.1, cellsOf cols x.2⟩ : SlotRow)).map SlotRow.slot).Nodup := by
    have slots := nodup.map (Option.some_injective Nat)
    rw [List.map_map] at slots ⊢
    exact slots
  exact once _ (topPerKey_keys_nodup.sublist (List.filter_sublist.map _))

end

/-! ## All statements -/

section Gather

variable {σ : Type} {rows : σ → List SlotRow} {take : σ → Base → SlotRow → Except Error Base}
  {keyAt : σ → SlotRow → Option Key} {target : Base}

/-- A row leads to a key and carries what is wanted there. -/
def Leads (take : Base → SlotRow → Except Error Base) (keyAt : SlotRow → Option Key)
    (target : Base) (row : SlotRow) : Prop :=
  ∃ k, keyAt row = some k ∧ target k = some row.cells ∧
    ∀ out, take out row = .ok (Function.update out k (some row.cells))

theorem foldlM_take_eq {take : Base → SlotRow → Except Error Base} {keyAt : SlotRow → Option Key}
    {rows : List SlotRow} (leads : ∀ row ∈ rows, Leads take keyAt target row) (out : Base) :
    ∃ out', rows.foldlM take out = .ok out' ∧
      (∀ k, (∃ row ∈ rows, keyAt row = some k) → out' k = target k) ∧
      ∀ k, (∀ row ∈ rows, keyAt row ≠ some k) → out' k = out k := by
  induction rows generalizing out with
  | nil => exact ⟨out, rfl, fun k ⟨_, mem, _⟩ => (nomatch mem), fun _ _ => rfl⟩
  | cons row rows ih =>
      obtain ⟨k, at_k, wanted, taken⟩ := leads row (.head rows)
      obtain ⟨out', folded, hit, missed⟩ :=
        ih (fun row mem => leads row (.tail _ mem)) (Function.update out k (some row.cells))
      refine ⟨out', ?_, fun j found => ?_, fun j absent => ?_⟩
      · rw [List.foldlM_cons, taken]
        exact folded
      · by_cases later : ∃ row ∈ rows, keyAt row = some j
        · exact hit j later
        · obtain ⟨row', mem, at_j⟩ := found
          have here : row' = row :=
            (List.mem_cons.mp mem).resolve_right fun tail => later ⟨row', tail, at_j⟩
          rw [here, at_k] at at_j
          obtain rfl := Option.some.inj at_j
          rw [missed k fun row mem at_k => later ⟨row, mem, at_k⟩, Function.update_self, wanted]
      · have apart : j ≠ k := fun same => absent row (.head rows) (same ▸ at_k)
        rw [missed j fun row mem => absent row (.tail _ mem), Function.update_of_ne apart]

/-- After all statements' answers the wanted columns are at every key a row leads to. -/
theorem foldlM_statements_eq {sts : List σ}
    (leads : ∀ st ∈ sts, ∀ row ∈ rows st, Leads (take st) (keyAt st) target row) (out : Base) :
    ∃ out', sts.foldlM (fun out st => (rows st).foldlM (take st) out) out = .ok out' ∧
      (∀ k, (∃ st ∈ sts, ∃ row ∈ rows st, keyAt st row = some k) → out' k = target k) ∧
      ∀ k, (∀ st ∈ sts, ∀ row ∈ rows st, keyAt st row ≠ some k) → out' k = out k := by
  induction sts generalizing out with
  | nil => exact ⟨out, rfl, fun k ⟨_, mem, _⟩ => (nomatch mem), fun _ _ => rfl⟩
  | cons st sts ih =>
      obtain ⟨mid, folded, hit, missed⟩ := foldlM_take_eq (leads st (.head sts)) out
      obtain ⟨out', folded', hit', missed'⟩ := ih (fun st mem => leads st (.tail _ mem)) mid
      refine ⟨out', ?_, fun k found => ?_, fun k absent => ?_⟩
      · rw [List.foldlM_cons, folded]
        exact folded'
      · by_cases later : ∃ st ∈ sts, ∃ row ∈ rows st, keyAt st row = some k
        · exact hit' k later
        · obtain ⟨st', mem, row, there, at_k⟩ := found
          have here : st' = st :=
            (List.mem_cons.mp mem).resolve_right fun tail => later ⟨st', tail, row, there, at_k⟩
          subst here
          rw [missed' k fun st mem row there at_k => later ⟨st, mem, row, there, at_k⟩,
            hit k ⟨row, there, at_k⟩]
      · rw [missed' k fun st mem => absent st (.tail _ mem), missed k (absent st (.head sts))]

end Gather

section

variable {l : Layout} {S : SourceTable l} {plan : ReplayPlan} {log table : List (LogRow Entry)}
  {keys : List Key} {cols : List Nat}

theorem length_cellsOf (r : LogRow Entry) : (cellsOf cols r).length = cols.length :=
  List.length_map _

/-- ClickHouse's readback is what the source held. -/
theorem Ch.readBase_eq (starts : StartsFrom plan log S) (attempted : Attempted plan log table)
    (len : Nat × Key → Nat) {answer : List Key → List SlotRow}
    (served : ∀ ks, (answer ks).Perm (readBaseChunkSql l.keyIdx cols plan table ks)) :
    readBase len keys cols answer = .ok (before S keys cols) := by
  let lens := keys.zipIdx.map fun at_ => len (at_.2, at_.1)
  let ranges := chunkByBytes lens readbackPredBytes readbackKeys
  have slices : (ranges.map (slice keys)).flatten = keys := by
    have whole : (ranges.map (slice keys)).flatten = keys.drop 0 :=
      flatten_slices keys (le_refl 0) (by simp [lens])
    rwa [List.drop_zero] at whole
  have sliced {range : Nat × Nat} {k : Key} (there : range ∈ ranges) (mem : k ∈ slice keys range) :
      k ∈ keys := by
    rw [← slices]
    exact List.mem_flatten.mpr ⟨_, List.mem_map_of_mem there, mem⟩
  have selected {ks : List Key} {row : SlotRow} (mem : row ∈ answer ks) :
      ∃ r, (∃ k ∈ ks, r.key l.keyIdx = keyCells k) ∧
        logTable l.keyIdx log (r.key l.keyIdx) = some r ∧
        row = ⟨slotOf l.keyIdx ks r, cellsOf cols r⟩ :=
    (mem_readBaseChunkSql starts attempted).mp ((served ks).mem_iff.mp mem)
  have leads : ∀ range ∈ ranges, ∀ row ∈ answer (slice keys range),
      Leads (takeLine (slice keys range) cols) (fun row => row.slot.bind ((slice keys range)[·]?))
        (before S keys cols) row := by
    intro range there row mem
    obtain ⟨r, ⟨k, asked, key⟩, settled, rfl⟩ := selected mem
    refine ⟨k, slotOf_key asked key, before_of_settled starts (sliced there asked) key settled, ?_⟩
    intro out
    rw [takeLine, if_neg (not_not.mpr (length_cellsOf r))]
    dsimp only
    rw [slotOf_key asked key]
  obtain ⟨out, folded, hit, missed⟩ := foldlM_statements_eq leads fun _ => none
  rw [readBase, folded]
  refine congrArg Except.ok (funext fun k => ?_)
  by_cases found : ∃ range ∈ ranges, ∃ row ∈ answer (slice keys range),
      row.slot.bind ((slice keys range)[·]?) = some k
  · exact hit k found
  · rw [missed k fun range there row mem at_k => found ⟨range, there, row, mem, at_k⟩]
    by_contra held
    obtain ⟨asked, r, key, settled⟩ := settled_of_before starts (Ne.symm held)
    rw [← slices] at asked
    obtain ⟨ks, mem, asked⟩ := List.mem_flatten.mp asked
    obtain ⟨range, there, rfl⟩ := List.mem_map.mp mem
    refine found ⟨range, there, ⟨slotOf l.keyIdx (slice keys range) r, cellsOf cols r⟩,
      (served _).mem_iff.mpr ?_, slotOf_key asked key⟩
    exact (mem_readBaseChunkSql starts attempted).mpr ⟨r, ⟨k, asked, key⟩, settled, rfl⟩

/-- Every row of every answer is on its first page. -/
def Bq.OnePage (answer : List (Nat × Key) → List (List SlotRow)) (sqls : List (List (Nat × Key))) :
    Prop :=
  ∀ sql ∈ sqls, (answer sql).tail.flatten = []

theorem Bq.query_append (pages : List (List SlotRow)) :
    query pages ++ pages.tail.flatten = pages.flatten := by
  cases pages <;> rfl

/-- The asked keys under their slots. -/
def Bq.slotted (keys : List Key) : List (Nat × Key) := keys.zipIdx.map fun (k, slot) => (slot, k)

theorem Bq.mem_slotted {slot : Nat} {k : Key} :
    (slot, k) ∈ slotted keys ↔ keys[slot]? = some k := by
  rw [slotted, List.mem_map]
  constructor
  · rintro ⟨⟨k', i⟩, mem, same⟩
    obtain ⟨rfl, rfl⟩ := Prod.mk.inj same
    exact List.mem_zipIdx_iff_getElem?.mp mem
  · exact fun here => ⟨(k, slot), List.mem_zipIdx_iff_getElem?.mpr here, rfl⟩

theorem Bq.slotted_slots (keys : List Key) : ((slotted keys).map Prod.fst).Nodup := by
  have slots : (slotted keys).map Prod.fst = keys.zipIdx.map Prod.snd := by
    rw [slotted, List.map_map]
    rfl
  rw [slots, List.zipIdx_map_snd]
  exact List.nodup_range'

/-- What a readback's statements ask for: every key under its slot, once. -/
theorem Bq.readBaseSqls_spec {pkLen : Nat} (parts : ∀ k ∈ keys, k.length = pkLen)
    (some_cols : cols ≠ []) (head : Nat) (len : Nat × Key → Nat) :
    ∃ sqls, readBaseSqls pkLen head len keys cols = .ok sqls ∧ sqls.flatten = slotted keys := by
  have fits : keys.find? (fun k => k.length ≠ pkLen) = none :=
    List.find?_eq_none.mpr fun k mem => by simpa using parts k mem
  rw [readBaseSqls, fits]
  by_cases empty : keys = []
  · exact ⟨[], if_pos (.inl empty), by rw [empty]; rfl⟩
  · refine ⟨_, if_neg (not_or.mpr ⟨empty, some_cols⟩), ?_⟩
    rw [flatten_cut, List.nil_append]
    rfl

/-- BigQuery's readback is what the source held exactly when no answer has a second page. -/
theorem Bq.readBase_eq_iff (starts : StartsFrom plan log S) (attempted : Attempted plan log table)
    (nodup : keys.Nodup) (parts : ∀ k ∈ keys, k.length = l.keyIdx.length) (some_cols : cols ≠ [])
    (head : Nat) (len : Nat × Key → Nat) {answer : List (Nat × Key) → List (List SlotRow)}
    (served : ∀ sql, (answer sql).flatten.Perm (readBaseSql l.keyIdx cols plan table sql)) :
    ∃ sqls, readBaseSqls l.keyIdx.length head len keys cols = .ok sqls ∧
      (readBase l.keyIdx.length head len keys cols answer = .ok (before S keys cols) ↔
        OnePage answer sqls) := by
  obtain ⟨sqls, cut, whole⟩ := readBaseSqls_spec parts some_cols head len
  refine ⟨sqls, cut, ?_⟩
  have asked {sql : List (Nat × Key)} (there : sql ∈ sqls) {slot : Nat} {k : Key}
      (mem : (slot, k) ∈ sql) : keys[slot]? = some k :=
    mem_slotted.mp (whole ▸ List.mem_flatten.mpr ⟨sql, there, mem⟩)
  have slots {sql : List (Nat × Key)} (there : sql ∈ sqls) : (sql.map Prod.fst).Nodup := by
    have all := slotted_slots keys
    rw [← whole] at all
    exact all.sublist ((List.sublist_flatten_of_mem there).map _)
  have selected {sql : List (Nat × Key)} (there : sql ∈ sqls) {row : SlotRow} :
      row ∈ (answer sql).flatten ↔ ∃ slot k r, (slot, k) ∈ sql ∧ r.key l.keyIdx = keyCells k ∧
        logTable l.keyIdx log (r.key l.keyIdx) = some r ∧ row = ⟨some slot, cellsOf cols r⟩ :=
    (served sql).mem_iff.trans (mem_readBaseSql starts attempted (slots there))
  have first {sql : List (Nat × Key)} {row : SlotRow} (mem : row ∈ query (answer sql)) :
      row ∈ (answer sql).flatten := by
    rw [← query_append]
    exact List.mem_append_left _ mem
  have leads : ∀ sql ∈ sqls, ∀ row ∈ query (answer sql),
      Leads (takeRow keys cols) (fun row => row.slot.bind (keys[·]?)) (before S keys cols) row := by
    intro sql there row mem
    obtain ⟨slot, k, r, asks, key, settled, rfl⟩ := (selected there).mp (first mem)
    have at_slot := asked there asks
    refine ⟨k, at_slot, before_of_settled starts (List.mem_of_getElem? at_slot) key settled, ?_⟩
    intro out
    rw [takeRow]
    dsimp only
    rw [if_neg (not_not.mpr (length_cellsOf r)), at_slot]
  obtain ⟨out, folded, hit, missed⟩ := foldlM_statements_eq leads fun _ => none
  rw [readBase, cut, Except.bind, folded, Except.ok.injEq]
  constructor
  · -- a row past the first page belongs to a key nothing else answers for
    intro exact sql there
    refine List.eq_nil_iff_forall_not_mem.mpr fun row late => ?_
    have mem : row ∈ (answer sql).flatten := by
      rw [← query_append]
      exact List.mem_append_right _ late
    obtain ⟨slot, k, r, asks, key, settled, rfl⟩ := (selected there).mp mem
    have at_slot := asked there asks
    have wanted : before S keys cols k = some (cellsOf cols r) :=
      before_of_settled starts (List.mem_of_getElem? at_slot) key settled
    obtain ⟨sql', there', row', mem', at_k⟩ : ∃ sql ∈ sqls, ∃ row ∈ query (answer sql),
        row.slot.bind (keys[·]?) = some k := by
      by_contra absent
      have none := missed k fun sql there row mem at_k => absent ⟨sql, there, row, mem, at_k⟩
      rw [exact, wanted] at none
      nomatch none
    obtain ⟨slot', k', r', asked', -, -, rfl⟩ := (selected there').mp (first mem')
    obtain ⟨short, here⟩ := List.getElem?_eq_some_iff.mp at_slot
    obtain ⟨short', here'⟩ := List.getElem?_eq_some_iff.mp at_k
    have same_slot : slot' = slot := (List.Nodup.getElem_inj_iff nodup).mp (here'.trans here.symm)
    subst same_slot
    obtain rfl : k' = k := Option.some.inj ((asked there' asked').symm.trans at_slot)
    have same_sql : sql' = sql := by
      have disjoint := (List.nodup_flatten.mp (whole ▸ (slotted_slots keys).of_map _)).2
      have sym : Std.Symm (List.Disjoint : List (Nat × Key) → _) := ⟨fun _ _ d => d.symm⟩
      by_contra apart
      exact disjoint.forall there' there apart asked' asks
    subst same_sql
    have once : (((answer sql').flatten).map SlotRow.slot).Nodup :=
      ((served sql').map SlotRow.slot).nodup_iff.mpr (slots_nodup _ _ _ _ _)
    rw [← query_append, List.map_append] at once
    exact (List.nodup_append.mp once).2.2 _ (List.mem_map_of_mem mem') _ (List.mem_map_of_mem late)
      rfl
  · intro one
    funext k
    by_cases found : ∃ sql ∈ sqls, ∃ row ∈ query (answer sql), row.slot.bind (keys[·]?) = some k
    · exact hit k found
    · rw [missed k fun sql there row mem at_k => found ⟨sql, there, row, mem, at_k⟩]
      by_contra held
      obtain ⟨wanted, r, key, settled⟩ := settled_of_before starts (Ne.symm held)
      obtain ⟨slot, at_slot⟩ := List.mem_iff_getElem?.mp wanted
      have mem := mem_slotted.mpr at_slot
      rw [← whole] at mem
      obtain ⟨sql, there, mem⟩ := List.mem_flatten.mp mem
      have answered := (selected there).mpr ⟨slot, k, r, mem, key, settled, rfl⟩
      rw [← query_append, one sql there, List.append_nil] at answered
      exact found ⟨sql, there, _, answered, at_slot⟩

end

/-! ## Attempts of one window -/

namespace Changes

section

variable {l : Layout} {S S' : SourceTable l}

/-- What a row of the log says: its op and its columns. -/
def said (e : Entry) : ChangeOp × Option (List Cell) := (e.op, e.row.map Tuple.toCells)

/-- What a captured record says once rebuilt: for an image the source's row right after. -/
def meant (e : Change × SourceTable l) : ChangeOp × Option (List Cell) :=
  (e.1.op, match e.1.op, e.1.row with
    | .insert, some row | .update, some row => e.2.rows (keyOf row l.keyIdx)
    | _, row => row.map Tuple.toCells)

theorem said_of_rebuilt {e : Change} {T : SourceTable l} {rebuilt : Option Tuple}
    (done : Rebuilt T e rebuilt) : said ⟨e.op, rebuilt.or e.row⟩ = meant (e, T) := by
  obtain ⟨op, row, movedFrom⟩ := e
  cases row with
  | none =>
      have kept : rebuilt = none := by cases op <;> exact done
      rw [kept]
      cases op <;> rfl
  | some row =>
      cases op with
      | insert | update =>
          refine Prod.ext rfl (Eq.trans ?_ done.2.symm)
          cases rebuilt <;> rfl
      | delete | truncate =>
          rw [show rebuilt = none from done]
          rfl

theorem map_said_entriesOf {events : List Change} {tables : List (SourceTable l)}
    {rows : List (Option Tuple)} (count : tables.length = events.length)
    (rebuilt : List.Forall₂ (fun e r => Rebuilt e.2 e.1 r) (events.zip tables) rows) :
    (entriesOf events rows).map said = (events.zip tables).map meant := by
  induction events generalizing tables rows with
  | nil => rfl
  | cons e events ih =>
      cases tables with
      | nil => nomatch count
      | cons T tables =>
          cases rebuilt with
          | cons done rebuilt =>
              have rest := ih (Nat.succ.inj count) rebuilt
              rw [entriesOf] at rest ⊢
              rw [List.zipWith_cons_cons, List.map_cons, rest, said_of_rebuilt done]
              rfl

theorem tablesAfter_append {ops : List StreamOp} (legal : S.run? ops = some S')
    (more : List StreamOp) :
    tablesAfter S (ops ++ more) = tablesAfter S ops ++ tablesAfter S' more := by
  induction ops generalizing S with
  | nil =>
      obtain rfl : S = S' := Option.some.inj legal
      rfl
  | cons op ops ih =>
      obtain ⟨S₁, first, rest⟩ := Option.bind_eq_some_iff.mp legal
      rw [List.cons_append, tablesAfter, tablesAfter, first]
      dsimp only
      rw [ih rest, List.append_assoc]

/-- An attempt's entries begin with what the shared events mean at the source. -/
theorem entries_begin {ops more : List StreamOp} (legal : S.run? (ops ++ more) = some S') :
    ∃ rows, (captured l (ops ++ more)).resolveMasked (captured l (ops ++ more)).maskPlan.2
        (before S (captured l (ops ++ more)).maskPlan.1 (captured l (ops ++ more)).maskPlan.2) =
          .ok rows ∧
      ((entriesOf (captured l (ops ++ more)).events rows).map said).take
          (captured l ops).events.length =
        ((captured l ops).events.zip (tablesAfter S ops)).map meant := by
  obtain ⟨rows, resolved, count, rebuilt⟩ := masks_rebuilt legal (answers_before S _ _)
  refine ⟨rows, resolved, ?_⟩
  rw [SourceTable.run?_append] at legal
  obtain ⟨S₁, first, -⟩ := Option.bind_eq_some_iff.mp legal
  rw [map_said_entriesOf count rebuilt, tablesAfter_append first]
  obtain ⟨all, -⟩ := captured_events l (ops ++ more)
  obtain ⟨shared, -⟩ := captured_events l ops
  rw [all, shared, List.flatMap_append, List.zip_append (length_tablesAfter first).symm,
    List.map_append]
  refine List.take_left' ?_
  rw [List.length_map, List.length_zip, length_tablesAfter first, Nat.min_self]

end

end Changes

/-! ## The readback -/

section

variable {l : Layout} {S₀ S : SourceTable l} {lsn : Nat} {rows : List Tuple}
  {windows : List LoggedWindow} {plan : ReplayPlan} {log table : List (LogRow Entry)}

/-- The log of a baseline and windows of legal events, the last ones perhaps another
writer's at the plan's own stamp, shows the source's table at the window's start. -/
theorem startsFrom_windows (slot : 0 < lsn) (snapshot : Snapshot S₀ rows)
    (first : ∀ w ∈ windows, lsn ≤ w.stamp) (rising : windows.Pairwise (LoggedWindow.Below l))
    (legal : S₀.run? (windows.flatMap LoggedWindow.ops) = some S)
    (landed : logWindows l (baselineRows lsn rows) windows = .ok log) (start : lsn ≤ plan.stamp)
    (below : ∀ w ∈ windows, w.Below l ⟨plan.stamp, plan.seqBase, []⟩) :
    StartsFrom plan log S := by
  obtain ⟨ordered, shown⟩ := baseline_inOrder slot snapshot
  have baseline (stamp seqBase : Nat) (later : lsn ≤ stamp) :
      Precedes stamp seqBase (baselineRows lsn rows) := by
    intro r there
    obtain ⟨row, -, rfl⟩ := List.mem_map.mp there
    exact (Nat.lt_or_eq_of_le later).imp id fun same => ⟨same, rfl⟩
  obtain ⟨log', landed', ordered', shown', bounded⟩ := windows_land ordered shown
    (fun w mem => Nat.lt_of_lt_of_le slot (first w mem)) rising
    (fun w mem => baseline w.stamp w.seqBase (first w mem)) legal
  obtain rfl : log' = log := Except.ok.inj (landed'.symm.trans landed)
  exact ⟨ordered', shown', bounded ⟨plan.stamp, plan.seqBase, []⟩ below (baseline _ _ start)⟩

/-- A readback over a log of a baseline and earlier windows, and whatever dead attempts
left, answers with the source's rows at the window's start: on ClickHouse always, on
BigQuery exactly when no answer has a second page. Every attempt of the window then
writes the same for the events it shares with another. -/
theorem readback_before (slot : 0 < lsn) (snapshot : Snapshot S₀ rows)
    (first : ∀ w ∈ windows, lsn ≤ w.stamp) (rising : windows.Pairwise (LoggedWindow.Below l))
    (legal : S₀.run? (windows.flatMap LoggedWindow.ops) = some S)
    (landed : logWindows l (baselineRows lsn rows) windows = .ok log) (start : lsn ≤ plan.stamp)
    (below : ∀ w ∈ windows, w.Below l ⟨plan.stamp, plan.seqBase, []⟩)
    (attempted : Attempted plan log table) :
    (∀ (keys : List Key) (cols : List Nat) (len : Nat × Key → Nat)
        (answer : List Key → List SlotRow),
      (∀ ks, (answer ks).Perm (Ch.readBaseChunkSql l.keyIdx cols plan table ks)) →
        Ch.readBase len keys cols answer = .ok (before S keys cols)) ∧
    (∀ (keys : List Key) (cols : List Nat) (head : Nat) (len : Nat × Key → Nat)
        (answer : List (Nat × Key) → List (List SlotRow)),
      keys.Nodup → (∀ k ∈ keys, k.length = l.keyIdx.length) → cols ≠ [] →
      (∀ sql, (answer sql).flatten.Perm (Bq.readBaseSql l.keyIdx cols plan table sql)) →
        ∃ sqls, Bq.readBaseSqls l.keyIdx.length head len keys cols = .ok sqls ∧
          (Bq.readBase l.keyIdx.length head len keys cols answer = .ok (before S keys cols) ↔
            Bq.OnePage answer sqls)) ∧
    ∀ (ops : List StreamOp), ∃ shared, ∀ (more : List StreamOp) (S' : SourceTable l),
      S.run? (ops ++ more) = some S' →
        let c := Changes.captured l (ops ++ more)
        ∃ rows, c.resolveMasked c.maskPlan.2 (before S c.maskPlan.1 c.maskPlan.2) = .ok rows ∧
          ((Changes.entriesOf c.events rows).map Changes.said).take
            (Changes.captured l ops).events.length = shared := by
  have starts := startsFrom_windows slot snapshot first rising legal landed start below
  refine ⟨fun keys cols len answer served => Ch.readBase_eq starts attempted len served,
    fun keys cols head len answer nodup parts some_cols served =>
      Bq.readBase_eq_iff starts attempted nodup parts some_cols head len served,
    fun ops => ⟨_, fun more S' legal => Changes.entries_begin legal⟩⟩

end

namespace Sample

/-- The first window after the bootstrap. -/
def plan : ReplayPlan := ⟨100, 0, 0, 1, none, true, 110⟩

/-- A dead attempt deleted the row that the next attempt asks for. -/
def tried : List (LogRow Entry) :=
  baselineRows 100 [image 1 10] ++ [⟨100, 0, .event ⟨.delete, some (image 1 10)⟩⟩]

/-- Two rows of the baseline. -/
def loaded : List (LogRow Entry) := baselineRows 100 [image 1 10, image 2 20]

/-- A server that puts each row on a page of its own. -/
def paged (sql : List (Nat × Key)) : List (List SlotRow) :=
  (Bq.readBaseSql layout.keyIdx [1] plan loaded sql).map fun row => [row]

end Sample

/-- The readback over the dead attempt's `D` still finds the baseline's row. -/
theorem readback_before_tried :
    Ch.readBase (fun _ => 0) [Sample.key 1] [1]
        (Ch.readBaseChunkSql Sample.layout.keyIdx [1] Sample.plan Sample.tried) =
      .ok (before Sample.one [Sample.key 1] [1]) :=
  (readback_before (l := Sample.layout) (S := Sample.one) (by decide) Sample.snapshot
    (nofun : ∀ w ∈ ([] : List LoggedWindow), 100 ≤ w.stamp) .nil rfl rfl (by decide) nofun
    ⟨_, .refl _, by decide⟩).1 _ _ _ _ fun _ => .refl _

theorem Sample.answered : Bq.readBaseSql Sample.layout.keyIdx [1] Sample.plan Sample.loaded
    [(0, Sample.key 1), (1, Sample.key 2)] =
      [⟨some 0, [some [10]]⟩, ⟨some 1, [some [20]]⟩] := by
  rw [Bq.readBaseSql, topPerKey, List.mergeSort_of_pairwise]
  · rfl
  · decide

/-- With its answer cut into two pages, BigQuery's readback misses the second key. -/
theorem readback_two_pages :
    (Bq.readBase 1 0 (fun _ => 0) [Sample.key 1, Sample.key 2] [1] Sample.paged).toOption.map
        (fun out => (out (Sample.key 1), out (Sample.key 2))) = some (some [some [10]], none) ∧
      logTable Sample.layout.keyIdx Sample.loaded (keyCells (Sample.key 2)) =
        some ⟨100, 0, .baseline (Sample.image 2 20)⟩ := by
  have cut : Bq.readBaseSqls 1 0 (fun _ => 0) [Sample.key 1, Sample.key 2] [1] =
      .ok [[(0, Sample.key 1), (1, Sample.key 2)]] := rfl
  have pages : Sample.paged [(0, Sample.key 1), (1, Sample.key 2)] =
      [[⟨some 0, [some [10]]⟩], [⟨some 1, [some [20]]⟩]] := by
    rw [Sample.paged, Sample.answered]
    rfl
  have read : Bq.readBase 1 0 (fun _ => 0) [Sample.key 1, Sample.key 2] [1] Sample.paged =
      .ok (Function.update (fun _ => none) (Sample.key 1) (some [some [10]])) := by
    rw [Bq.readBase, cut, Except.bind, List.foldlM_cons, pages]
    rfl
  rw [read]
  decide

end Apitap
