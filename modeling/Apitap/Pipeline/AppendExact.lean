import Apitap.Pipeline.AppendRun
import Mathlib.Data.List.MinMax

/-!
# A table against its sources

`Exact` is what append runs keep: the table holds a source's rows up to its stored
watermark, each once. A landing keeps it when it brings everything above the bound the
table stood at, up to some moment of the source; `Read` is why a load does, whatever is
committed between its statements.
-/

namespace Apitap.Append

open Guard (Token)
open Iceberg (Mode)

variable {κ : Type} {F : Fleet κ} {c : Cursor κ} {s : String} {d : Db κ}

theorem ownRow_eq (qualified : (pgStateKeys F.destKey).2 = F.destKey)
    (keyed : ∀ r ∈ d.state, r.destTable ≠ (pgStateKeys F.destKey).1) :
    d.ownRow F.destKey s = d.row F.destKey s := by
  have none_bare : d.row (pgStateKeys F.destKey).1 s = none :=
    List.find?_eq_none.mpr fun r mem is => keyed r mem (of_decide_eq_true is).1
  rw [Db.ownRow, qualified, none_bare, Option.or_none]

variable [LinearOrder κ]

/-! ## What the table holds of a source -/

variable {w w' : World κ} {v : κ}

/-- A source is at a value, or past it: whatever it commits from here on is above. -/
def Fleet.Reached (F : Fleet κ) (s : String) (log : List κ) (v : κ) : Prop :=
  (v : WithBot κ) ≤ F.floor s ∨ ∃ x ∈ log, v ≤ x

/-- The table holds a source's rows up to a value, each once, and no other row of it. -/
structure UpTo (F : Fleet κ) (w : World κ) (s : String) (v : κ) : Prop where
  reached : F.Reached s (w.log s) v
  once : ∀ x, w.db.held s x = if x ∈ w.log s ∧ x ≤ v then 1 else 0

/-- Every run reads this source. -/
def Lone (F : Fleet κ) (s : String) : Prop := ∀ τ, F.Mints τ → F.source τ = s

/-- The table against the sources and the state rows: what append runs keep. A table
with rows and no state row at all was loaded for the one source that feeds it. -/
structure Exact (F : Fleet κ) (w : World κ) : Prop where
  rising : ∀ s, (w.log s).Pairwise (· < ·)
  above : ∀ s, ∀ v ∈ w.log s, F.floor s < v
  keyed : ∀ r ∈ w.db.state, r.destTable ≠ (pgStateKeys F.destKey).1
  owned : ∀ s r, w.db.row F.destKey s = some r →
    ∃ v, r.watermark = F.cursor.text v ∧ UpTo F w s v
  absent : ∀ s, w.db.row F.destKey s = none → w.db.stateRows F.destKey ≠ 0 →
    ∀ x, w.db.held s x = 0
  adopted : w.db.stateRows F.destKey = 0 → w.db.rows ≠ [] → ∃ s, Lone F s ∧
    (∀ t, t ≠ s → ∀ x, w.db.held t x = 0) ∧
    ∀ v, (w.db.rows.map Prod.snd).max? = some v → UpTo F w s v

/-- What a source's own run can rely on while it is past its check: nobody else lands
rows of that source or writes its state row. -/
structure Around (F : Fleet κ) (s : String) (w w' : World κ) : Prop where
  grown : w.log s <+: w'.log s
  fresh : ∀ x ∈ w'.log s, x ∉ w.log s → ∀ u, F.Reached s (w.log s) u → u < x
  held : ∀ x, w'.db.held s x = w.db.held s x
  final : w.db.final.isSome → w'.db.final.isSome
  rows : w.db.rows ≠ [] → w'.db.rows ≠ []
  own : w.db.final.isSome → w'.db.ownRow F.destKey s = w.db.ownRow F.destKey s
  lone : Lone F s → w'.db.rows = w.db.rows ∧ w'.db.stateRows F.destKey = w.db.stateRows F.destKey

theorem Fleet.Reached.grown {log log' : List κ} (reached : F.Reached s log v)
    (grown : log <+: log') :
    F.Reached s log' v :=
  reached.imp id fun ⟨x, mem, le⟩ => ⟨x, grown.subset mem, le⟩

theorem UpTo.around (up : UpTo F w s v) (around : Around F s w w') : UpTo F w' s v := by
  refine ⟨up.reached.grown around.grown, fun x => ?_⟩
  have same : (x ∈ w'.log s ∧ x ≤ v) ↔ (x ∈ w.log s ∧ x ≤ v) := by
    refine and_congr_left fun le => ⟨fun mem => ?_, fun mem => around.grown.subset mem⟩
    by_contra fresh
    exact absurd le (not_le_of_gt (around.fresh x mem fresh v up.reached))
  rw [around.held, up.once]
  exact (if_congr same rfl rfl).symm

/-- A commit leaves the destination alone. -/
theorem around_commit {t : String} (above : F.floor t < v) (rises : ∀ x ∈ w.log t,
    x < v) (s : String) :
    Around F s w (w.commit t v) := by
  refine ⟨?_, fun x mem fresh u reached => ?_, fun _ => rfl, id, id, fun _ => rfl,
    fun _ => ⟨rfl, rfl⟩⟩
  · by_cases same : s = t
    · subst same
      exact ⟨[v], (w.commit_log_self s v).symm⟩
    · exact w.commit_log_ne same v ▸ List.prefix_rfl
  · by_cases same : s = t
    · subst same
      rw [World.commit_log_self] at mem
      obtain rfl := List.mem_singleton.mp ((List.mem_append.mp mem).resolve_left fresh)
      obtain low | ⟨y, there, le⟩ := reached
      · exact WithBot.coe_lt_coe.mp (lt_of_le_of_lt low above)
      · exact lt_of_le_of_lt le (rises y there)
    · exact absurd (w.commit_log_ne same v ▸ mem) fresh

/-- The invariant in terms of the logs, the table and the state rows. -/
theorem Exact.of_same (exact_ : Exact F w) (log : w'.log = w.log) (final : w'.db.final = w.db.final)
    (state : w'.db.state = w.db.state) : Exact F w' := by
  have rows : w'.db.rows = w.db.rows := by rw [Db.rows, Db.rows, final]
  have held (t : String) (x : κ) : w'.db.held t x = w.db.held t x := by rw [Db.held, Db.held, rows]
  have row (t : String) : w'.db.row F.destKey t = w.db.row F.destKey t := by
    rw [Db.row, Db.row, state]
  have count : w'.db.stateRows F.destKey = w.db.stateRows F.destKey := by
    rw [Db.stateRows, Db.stateRows, state]
  have up (t : String) (v : κ) : UpTo F w' t v ↔ UpTo F w t v := by
    constructor <;> rintro ⟨reached, once⟩
    · exact ⟨log ▸ reached, fun x => by rw [← held, once, log]⟩
    · exact ⟨log ▸ reached, fun x => by rw [held, once, log]⟩
  constructor
  · exact log ▸ exact_.rising
  · exact log ▸ exact_.above
  · exact state ▸ exact_.keyed
  · simpa only [row, up] using exact_.owned
  · simpa only [row, count, held] using exact_.absent
  · simpa only [count, rows, held, up] using exact_.adopted

theorem Exact.commit {t : String} (exact_ : Exact F w) (above : F.floor t < v)
    (rises : ∀ x ∈ w.log t, x < v) : Exact F (w.commit t v) := by
  have around := around_commit above rises
  refine ⟨fun s => ?_, fun s x mem => ?_, exact_.keyed, fun s r row => ?_, exact_.absent,
    fun none_there some_there => ?_⟩
  · by_cases same : s = t
    · subst same
      rw [World.commit_log_self, List.pairwise_append]
      exact ⟨exact_.rising s, List.pairwise_singleton .., fun x mem y there =>
        List.mem_singleton.mp there ▸ rises x mem⟩
    · exact w.commit_log_ne same v ▸ exact_.rising s
  · by_cases there : x ∈ w.log s
    · exact exact_.above s x there
    · by_cases same : s = t
      · subst same
        rw [World.commit_log_self] at mem
        exact List.mem_singleton.mp ((List.mem_append.mp mem).resolve_left there) ▸ above
      · exact absurd (w.commit_log_ne same v ▸ mem) there
  · obtain ⟨u, text, up⟩ := exact_.owned s r row
    exact ⟨u, text, up.around (around s)⟩
  · obtain ⟨s, lone, others, most⟩ := exact_.adopted none_there some_there
    exact ⟨s, lone, others, fun u max => (most u max).around (around s)⟩

/-- A prefix of a rising log has everything up to what it has. -/
theorem mem_of_sofar {pre log : List κ} {x y : κ} (pre_log : pre <+: log)
    (rising : log.Pairwise (· < ·)) (there : y ∈ pre) (mem : x ∈ log) (le : x ≤ y) : x ∈ pre := by
  obtain ⟨rest, rfl⟩ := pre_log
  refine (List.mem_append.mp mem).resolve_right fun later => ?_
  exact absurd le (not_le_of_gt ((List.pairwise_append.mp rising).2.2 y there x later))

theorem count_tagged (rows : List κ) (t : String) (x : κ) :
    (rows.map fun v => (s, v)).count (t, x) = if t = s then rows.count x else 0 := by
  induction rows with
  | nil => simp
  | cons v rows ih =>
      rw [List.map_cons, List.count_cons, List.count_cons, ih]
      by_cases same : t = s
      · subst same
        simp
      · simp [same, Ne.symm same]

/-- A landing of everything above the bound the table stood at, up to some moment. -/
theorem Exact.land {τ : Token} {mode : Mode} {rows pre : List κ} {low : κ → Bool} {db : Db κ}
    (exact_ : Exact F w) (mints : F.Mints τ)
    (lands : Lands F.cursor (F.bound τ) mode (rows.map fun v => (F.source τ, v)) w.db db)
    (sofar : pre <+: w.log (F.source τ)) (up : ∀ x y, x ≤ y → low x = true → low y = true)
    (read : ∀ x, rows.count x = if x ∈ pre ∧ low x = true then 1 else 0)
    (stood : ∀ x, w.db.held (F.source τ) x = if x ∈ w.log (F.source τ) ∧
      low x = false then 1 else 0) :
    Exact F { w with db := db } := by
  obtain ⟨m, max, r, own, mark⟩ := lands.own
  have read_mem : ∀ x, x ∈ rows ↔ x ∈ pre ∧ low x = true := fun x => by
    rw [← List.count_pos_iff, read]
    split <;> simp_all
  have tagged : (rows.map fun v => (F.source τ, v)).map Prod.snd = rows := by
    rw [List.map_map]
    exact List.map_id _
  obtain ⟨m_rows, most⟩ := List.max?_eq_some_iff.mp (tagged ▸ max)
  obtain ⟨m_pre, m_low⟩ := (read_mem m).mp m_rows
  have held (t : String) (x : κ) :
      db.held t x = w.db.held t x + if t = F.source τ then rows.count x else 0 := by
    rw [lands.held, count_tagged]
  have mine : UpTo F { w with db := db } (F.source τ) m := by
    refine ⟨.inr ⟨m, sofar.subset m_pre, le_rfl⟩, fun x => ?_⟩
    show db.held _ x = if x ∈ w.log _ ∧ x ≤ m then 1 else 0
    rw [held, if_pos rfl, stood, read]
    cases is : low x with
    | true =>
        have same : (x ∈ pre ∧ true = true) ↔ (x ∈ w.log (F.source τ) ∧ x ≤ m) :=
          ⟨fun here => ⟨sofar.subset here.1, most x ((read_mem x).mpr ⟨here.1, is⟩)⟩,
            fun here => ⟨mem_of_sofar sofar (exact_.rising _) m_pre here.1 here.2, rfl⟩⟩
        rw [if_neg (fun here => nomatch here.2), Nat.zero_add]
        exact if_congr same rfl rfl
    | false =>
        have below : x ≤ m := by
          by_contra above
          have high := up m x (le_of_not_ge above) m_low
          rw [is] at high
          nomatch high
        simp [below]
  have theirs {t : String} (ne : t ≠ F.source τ) (x : κ) : db.held t x = w.db.held t x := by
    rw [held, if_neg ne, Nat.add_zero]
  have some_row : db.stateRows F.destKey ≠ 0 := stateRows_ne own
  refine ⟨exact_.rising, exact_.above, fun r mem => ?_, fun t r' row => ?_,
    fun t none_own _ x => ?_,
    fun none_there => absurd none_there some_row⟩
  · obtain old | new := lands.keys r mem
    · exact exact_.keyed r old
    · exact new ▸ (bare_ne F.qualified).symm
  · by_cases same : t = F.source τ
    · subst same
      obtain rfl := Option.some.inj (own.symm.trans row)
      exact ⟨m, mark, mine⟩
    · obtain kept | ⟨-, gone⟩ := lands.others t same
      · obtain ⟨v, text, reached, once⟩ := exact_.owned t r' (kept.symm.trans row)
        exact ⟨v, text, reached, fun x => (theirs same x).trans (once x)⟩
      · nomatch gone.symm.trans row
  · by_cases same : t = F.source τ
    · subst same
      nomatch own.symm.trans none_own
    · show db.held t x = 0
      rw [theirs same]
      obtain kept | ⟨missing, -⟩ := lands.others t same
      · by_cases stateless : w.db.stateRows F.destKey = 0
        · by_cases empty : w.db.rows = []
          · exact held_eq_zero empty x
          · obtain ⟨s, lone, others, -⟩ := exact_.adopted stateless empty
            exact others t (fun is => same (is.trans (lone τ mints).symm)) x
        · exact exact_.absent t (kept.symm.trans none_own) stateless x
      · exact held_eq_zero (rows_eq_nil missing) x

/-! ## A read, statement by statement -/

section read

variable {pre log : List κ} {p : κ → Bool} {low : κ → Bool} {left before after : Statements κ}
  {rows : List κ}

/-- What the statement asks for had been committed by then. -/
def Ends (pre : List κ) (p : κ → Bool) : Prop := ∀ v, p v = true → ∃ hi ∈ pre, v ≤ hi

/-- The rows of the statements that are done are those of one moment of the source. All
but one of the statements left end below rows of that moment; while that one is left, so
do the statements done. -/
structure Read (log : List κ) (low : κ → Bool) (left : Statements κ) (rows pre : List κ) :
    Prop where
  sofar : pre <+: log
  count : ∀ v, rows.count v = if v ∈ pre ∧ low v = true ∧ ∀ p ∈ left, p v = false then 1 else 0
  apart : ∀ v, left.countP (· v) ≤ 1
  ends : left.Pairwise fun p q => Ends pre p ∨ Ends pre q
  open_ : (∀ p ∈ left, Ends pre p) ∨ ∀ v, (∀ p ∈ left, p v = false) → ∃ hi ∈ pre, v ≤ hi

theorem Ends.grown {pre' : List κ} (ends : Ends pre p) (grown : pre <+: pre') : Ends pre' p :=
  fun v mem => (ends v mem).imp fun _ ⟨there, le⟩ => ⟨grown.subset there, le⟩

theorem Splits.read {stmts : Statements κ} (splits : Splits log low stmts) :
    Read log low stmts [] log := by
  cases splits with
  | @ranges closed last once ends =>
      have covered : ∀ v, ¬ ∀ p ∈ closed ++ [last], p v = false := by
        intro v none_
        have zero : (closed ++ [last]).countP (· v) = 0 :=
          List.countP_eq_zero.mpr fun p mem => by simp [none_ p mem]
        exact absurd (once v) (zero ▸ by decide)
      refine ⟨List.prefix_rfl, fun v => ?_, fun v => (once v).le, ?_, .inr fun v none_ =>
        absurd none_ (covered v)⟩
      · rw [if_neg (fun here => covered v here.2.2), List.count_nil]
      · refine List.pairwise_append.mpr ⟨?_, List.pairwise_singleton .., fun p mem q _ =>
          .inl (ends p mem)⟩
        exact List.pairwise_of_forall_mem_list fun p mem q _ => .inl (ends p mem)
  | nothing empty =>
      have never : Ends log (fun _ : κ => false) := nofun
      refine ⟨List.prefix_rfl, fun v => ?_, fun v => by simp, List.pairwise_singleton ..,
        .inl fun p mem => List.mem_singleton.mp mem ▸ never⟩
      rw [List.count_nil, if_neg]
      exact fun ⟨mem, high, _⟩ => by simp [empty v mem] at high

local instance int64Order : LinearOrder Int64 :=
  LinearOrder.lift' Int64.toInt fun _ _ => Int64.toInt_inj.mp

/-- The range statements of an integer cursor are such a split, when the probe's maximum
is a row's. -/
theorem splits_spans {log : List Int64} {lo hi : Int64} (ordered : lo.toInt ≤ hi.toInt)
    (there : hi ∈ log) (n : UInt64) (nullable : Bool) (above : Int64 → Bool) :
    ∃ ranges, Source.spans lo hi n = some ranges ∧
      Splits log above ((Source.spanRanges ranges nullable).map fun p v => p.reads (some v)) := by
  obtain ⟨rs, tiles, -, cut⟩ := Source.spans_tiles (Int64.le_iff_toInt_le.mpr ordered) n
  refine ⟨Source.toRanges rs, cut, ?_⟩
  have once := Source.countP_reads_some tiles nullable
  have some_range : Source.toRanges rs ≠ [] := by simpa [Source.toRanges] using tiles.ne_nil
  obtain ⟨inner, last, split, flags⟩ := Foundation.edged_eq_append some_range true
  rw [Source.spanRanges_eq, split, List.map_append, List.map_append]
  refine .ranges (fun v => ?_) fun p mem v reads => ⟨hi, there, ?_⟩
  · have both := once v
    rw [Source.spanRanges_eq, split, List.map_append, List.countP_append, List.countP_map] at both
    rw [List.countP_append, List.countP_map, List.countP_map]
    exact both
  · obtain ⟨_, mem, same⟩ := List.mem_map.mp mem
    obtain ⟨r, here, rfl⟩ := List.mem_map.mp mem
    subst same
    have range : r.1 ∈ Source.toRanges rs :=
      Foundation.mem_of_mem_edged (split ▸ List.mem_append_left _ here)
    have inside := (tiles.bounds (Source.mem_toRanges tiles range)).2.2
    change (Source.spanRange r.2.1 r.2.2 r.1.1 r.1.2 nullable).reads (some v) = true at reads
    rw [Source.spanRange_reads, flags r here, Bool.false_or, Bool.and_eq_true] at reads
    exact (Int64.le_iff_toInt_le.mp (of_decide_eq_true reads.2)).trans inside

theorem count_filter_nodup (nodup : log.Nodup) (q : κ → Bool) (v : κ) :
    (log.filter q).count v = if v ∈ log ∧ q v = true then 1 else 0 := by
  rw [(nodup.filter q).count]
  exact if_congr List.mem_filter rfl rfl

omit [LinearOrder κ] in
theorem forall_left (v : κ) : (∀ q ∈ before ++ p :: after, q v = false) ↔
    p v = false ∧ ∀ q ∈ before ++ after, q v = false := by
  simp only [List.mem_append, List.mem_cons]
  constructor
  · exact fun all => ⟨all p (.inr (.inl rfl)), fun q mem => all q (mem.imp id .inr)⟩
  · rintro ⟨here, rest⟩ q (mem | rfl | mem)
    exacts [rest q (.inl mem), here, rest q (.inr mem)]

/-- One more statement, at any later moment. -/
theorem Read.step (read : Read log low (before ++ p :: after) rows pre)
    (rising : log.Pairwise (· < ·)) :
    ∃ pre', Read log low (before ++ after) (rows ++ log.filter fun v => p v && low v) pre' := by
  have nodup : log.Nodup := rising.imp fun lt => ne_of_lt lt
  have sub : (before ++ after).Sublist (before ++ p :: after) :=
    (List.sublist_cons_self p after).append_left before
  have once (v : κ) : p v = true → ∀ q ∈ before ++ after, q v = false := by
    intro here q mem
    have most := read.apart v
    rw [List.countP_append, List.countP_cons, if_pos here] at most
    have none_ : (before ++ after).countP (· v) = 0 := by
      rw [List.countP_append]
      omega
    simpa using List.countP_eq_zero.mp none_ q mem
  have apart (v : κ) : (before ++ after).countP (· v) ≤ 1 :=
    (sub.countP_le (p := (· v))).trans (read.apart v)
  -- the rows so far and the new ones, as rows of a moment `at_` that has what both read
  have count {at_ : List κ} (old : ∀ v, (p v = false ∧ ∀ q ∈ before ++ after, q v = false) →
        (v ∈ pre ↔ v ∈ at_)) (new : ∀ v, p v = true → (v ∈ log ↔ v ∈ at_)) (v : κ) :
      (rows ++ log.filter fun v => p v && low v).count v =
        if v ∈ at_ ∧ low v = true ∧ ∀ q ∈ before ++ after, q v = false then 1 else 0 := by
    rw [List.count_append, read.count, count_filter_nodup nodup]
    cases here : p v with
    | true =>
        rw [if_neg (fun all => by simp [((forall_left v).mp all.2.2).1] at here), Nat.zero_add]
        refine if_congr ?_ rfl rfl
        rw [new v here]
        simp only [Bool.true_and]
        exact and_congr_right fun _ => ⟨fun high => ⟨high, once v here⟩, fun high => high.1⟩
    | false =>
        simp only [forall_left, here, Bool.false_and, and_false, if_false, Nat.add_zero, true_and,
          reduceCtorEq]
        by_cases rest : ∀ q ∈ before ++ after, q v = false
        · exact if_congr (and_congr_left fun _ => old v ⟨here, rest⟩) rfl rfl
        · rw [if_neg fun all => rest all.2.2, if_neg fun all => rest all.2.2]
  by_cases closed : Ends pre p
  · have new (v : κ) (here : p v = true) : v ∈ log ↔ v ∈ pre := by
      obtain ⟨hi, there, le⟩ := closed v here
      exact ⟨fun mem => mem_of_sofar read.sofar rising there mem le, fun mem =>
        read.sofar.subset mem⟩
    refine ⟨pre, read.sofar, count (fun _ _ => Iff.rfl) new, apart, read.ends.sublist sub,
      read.open_.imp (fun all q mem => all q (sub.subset mem)) fun below v rest => ?_⟩
    cases here : p v with
    | true => exact closed v here
    | false => exact below v ((forall_left v).mpr ⟨here, rest⟩)
  · -- the statement without an end: its moment is the read's
    have below : ∀ v, (∀ q ∈ before ++ p :: after, q v = false) → ∃ hi ∈ pre, v ≤ hi :=
      read.open_.resolve_left fun all =>
        closed (all p (List.mem_append_right _ (List.mem_cons_self ..)))
    have others : ∀ q ∈ before ++ after, Ends log q := by
      intro q mem
      refine Ends.grown ?_ read.sofar
      obtain ⟨first, second, across⟩ := List.pairwise_append.mp read.ends
      obtain mem | mem := List.mem_append.mp mem
      · exact (across q mem p (List.mem_cons_self ..)).resolve_right closed
      · exact ((List.pairwise_cons.mp second).1 q mem).resolve_left closed
    have old (v : κ) (rest : p v = false ∧ ∀ q ∈ before ++ after, q v = false) :
        v ∈ pre ↔ v ∈ log := by
      obtain ⟨hi, there, le⟩ := below v ((forall_left v).mpr rest)
      exact ⟨fun mem => read.sofar.subset mem, fun mem =>
        mem_of_sofar read.sofar rising there mem le⟩
    exact ⟨log, List.prefix_rfl, count old (fun _ _ => Iff.rfl), apart,
      List.pairwise_of_forall_mem_list fun q mem _ _ => .inl (others q mem), .inl others⟩

end read

end Apitap.Append
