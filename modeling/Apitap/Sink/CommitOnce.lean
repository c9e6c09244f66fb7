import Mathlib.Data.List.Nodup
import Mathlib.Data.List.Flatten
import Mathlib.Data.List.Infix
import Apitap.Sink.IcebergCommit

/-!
# A commit lands once

Each posted commit stands on the history it was built on, and that history holds none
of the run's own snapshots. Main only grows: once anything is committed on top, the
requirement on main's snapshot fails for good, so of the commits built on histories
without the run's snapshots only one is ever applied.
-/

namespace Apitap.Iceberg

/-- No path of the run is counted in these snapshots. -/
def Clean (r : Run) (h : List Snapshot) : Prop := ∀ x ∈ h, ∀ p ∈ r.paths, p ∉ x.entries

/-- What a commit of this run adds, on the history it was built on. -/
structure Built (r : Run) (base : List Snapshot) (c : Commit) : Prop where
  main : c.main = base.head?.map (·.id)
  parent : c.snapshot.parent = c.main
  carry : r.mode = .append ∨ r.mode = .merge →
    ∀ x, base.head? = some x → x.manifests <+: c.snapshot.manifests
  once : ∀ p ∈ r.paths, c.snapshot.entries.count p ≤ 1
  data : ∀ f ∈ r.files, c.snapshot.entries.count f.path = 1
  sets : c.sets = r.sets

/-- A history the table once had, without a snapshot of this run. -/
structure Past (s : Catalog) (u : Nat) (base : List Snapshot) : Prop where
  uuid : u ∈ s.uuids
  known : ∀ x ∈ base, x.id ∈ s.used ∧ x.id ∉ s.drawn
  kept : ∀ t, s.table = some t → t.uuid = u → base <:+ t.snapshots

/-- What an applied commit left behind. -/
structure Landed (r : Run) (s : Catalog) (l : Landing) : Prop where
  admitted : l.before.admits l.commit = true
  built : Built r l.before.snapshots l.commit
  uuid : l.before.uuid ∈ s.uuids
  drawn : l.commit.snapshot.id ∈ s.drawn
  kept : ∀ t, s.table = some t → t.uuid = l.before.uuid → l.commit.snapshot ∈ t.snapshots

/-- The table as it is now. -/
structure Sound (r : Run) (s : Catalog) (t : TableMetadata) : Prop where
  ids : (t.snapshots.map (·.id)).Nodup
  used : ∀ x ∈ t.snapshots, x.id ∈ s.used
  uuid : t.uuid ∈ s.uuids
  /-- A snapshot of this run is on main because its commit was applied. -/
  own : ∀ x ∈ t.snapshots, x.id ∈ s.drawn →
    ∃ l ∈ s.landed, l.before.uuid = t.uuid ∧ l.commit.snapshot = x
  clean : ∀ h, h <:+ t.snapshots → (∀ x ∈ h, x.id ∉ s.drawn) → Clean r h
  once : ∀ x ∈ t.snapshots, ∀ p ∈ r.paths, x.entries.count p ≤ 1

structure Inv (r : Run) (s : Catalog) : Prop where
  table : ∀ t, s.table = some t → Sound r s t
  drawn : ∀ i ∈ s.drawn, i ∈ s.used
  posted : ∀ c ∈ s.posted,
    c.snapshot.id ∈ s.drawn ∧ ∃ base, Past s c.uuid base ∧ Built r base c
  pending : ∀ c ∈ s.pending, c ∈ s.posted
  landed : ∀ l ∈ s.landed, Landed r s l
  /-- One table takes at most one of them. -/
  apart : (s.landed.map (·.before.uuid)).Nodup

section

variable {r : Run} {s s' : Catalog} {t : TableMetadata} {c : Commit} {base : List Snapshot}

/-- A shorter history with the same snapshot on top is the whole history. -/
theorem eq_of_head {h l : List Snapshot} (older : h <:+ l) (ids : (l.map (·.id)).Nodup)
    (top : l.head?.map (·.id) = h.head?.map (·.id)) : h = l := by
  cases l with
  | nil => exact List.suffix_nil.mp older
  | cons x l =>
      obtain rfl | older := List.suffix_cons_iff.mp older
      · rfl
      · obtain ⟨distinct, -⟩ := List.nodup_cons.mp ids
        cases h with
        | nil => nomatch top
        | cons y h =>
            have same : x.id = y.id := Option.some.inj top
            have mem : y ∈ l := older.subset List.mem_cons_self
            exact absurd (List.mem_map.mpr ⟨y, mem, same.symm⟩) distinct

theorem admits_iff : t.admits c = true ↔ t.uuid = c.uuid ∧ t.schemaId = c.schemaId ∧
    t.specId = c.specId ∧ t.currentSnapshot.map (·.id) = c.main := by
  rw [TableMetadata.admits, decide_eq_true_iff]

/-- An admitted commit stands on the whole history. -/
theorem Past.whole (inv : Inv r s) (past : Past s c.uuid base)
    (main : c.main = base.head?.map (·.id))
    (there : s.table = some t) (admitted : t.admits c = true) : base = t.snapshots := by
  obtain ⟨uuid, -, -, top⟩ := admits_iff.mp admitted
  exact eq_of_head (past.kept t there uuid) (inv.table t there).ids (top.trans main)

/-! ## What every move keeps -/

theorem Past.mono {u : Nat} (past : Past s u base) (uuids : s.uuids ⊆ s'.uuids)
    (used : s.used ⊆ s'.used) (drawn : s'.drawn = s.drawn)
    (kept : ∀ t, s'.table = some t → t.uuid = u → base <:+ t.snapshots) : Past s' u base :=
  ⟨uuids past.uuid, fun x mem => ⟨used (past.known x mem).1, drawn ▸ (past.known x mem).2⟩, kept⟩

theorem entries_sublist {ms ms' : List ManifestFile} (sub : ms.Sublist ms') :
    (ms.flatMap fun m => m.files.map (·.path)).Sublist (ms'.flatMap fun m =>
      m.files.map (·.path)) :=
  sub.flatMap _

theorem foreign_entries {added : List ManifestFile} {p : String}
    (foreign : ∀ m ∈ added, ∀ f ∈ m.files, f.path ∉ r.paths) (own : p ∈ r.paths) :
    p ∉ added.flatMap fun m => m.files.map (·.path) := by
  intro mem
  obtain ⟨m, inAdded, mem⟩ := List.mem_flatMap.mp mem
  obtain ⟨f, inFiles, rfl⟩ := List.mem_map.mp mem
  exact foreign m inAdded f inFiles own

/-- A peer's snapshot counts a path of the run as often as its parent, or less. -/
theorem peer_entries {x : Snapshot} {kept added : List ManifestFile} {p : String}
    (manifests : x.manifests = kept ++ added)
    (old : kept.Sublist (t.currentSnapshot.map (·.manifests) |>.getD []))
    (foreign : ∀ m ∈ added, ∀ f ∈ m.files, f.path ∉ r.paths) (own : p ∈ r.paths) :
    x.entries.count p = 0 ∨ ∃ y ∈ t.snapshots, x.entries.count p ≤ y.entries.count p := by
  have entries : x.entries.count p = (kept.flatMap fun m => m.files.map (·.path)).count p := by
    rw [Snapshot.entries, manifests, List.flatMap_append, List.count_append,
      List.count_eq_zero.mpr (foreign_entries foreign own), Nat.add_zero]
  cases top : t.currentSnapshot with
  | none =>
      rw [top] at old
      obtain rfl := List.sublist_nil.mp old
      exact .inl entries
  | some y =>
      rw [top] at old
      exact .inr ⟨y, List.mem_of_mem_head? top, entries ▸ (entries_sublist old).count_le p⟩

/-- A snapshot on top of the history, of this run or not. -/
theorem clean_cons {x : Snapshot} {snapshots : List Snapshot} {drawn : List Int}
    (clean : ∀ h, h <:+ snapshots → (∀ x ∈ h, x.id ∉ drawn) → Clean r h)
    (top : x.id ∉ drawn → Clean r snapshots → ∀ p ∈ r.paths, p ∉ x.entries) :
    ∀ h, h <:+ x :: snapshots → (∀ x ∈ h, x.id ∉ drawn) → Clean r h := by
  intro h older foreign
  obtain rfl | older := List.suffix_cons_iff.mp older
  · have below : Clean r snapshots :=
      clean snapshots (List.suffix_refl _) fun y mem => foreign y (List.mem_cons_of_mem _ mem)
    intro y mem
    obtain rfl | mem := List.mem_cons.mp mem
    · exact top (foreign y List.mem_cons_self) below
    · exact below y mem
  · exact clean h older foreign

/-- The table has changed, but kept its history or put a snapshot on top. -/
theorem older_of_grown {t' : TableMetadata} {u : Nat} (there : s.table = some t)
    (same : t'.uuid = t.uuid) (grown : t.snapshots <:+ t'.snapshots)
    (kept : ∀ t, s.table = some t → t.uuid = u → base <:+ t.snapshots) :
    ∀ v, some t' = some v → v.uuid = u → base <:+ v.snapshots := by
  intro v is uuid
  obtain rfl := Option.some.inj is
  exact (kept t there (same ▸ uuid)).trans grown

theorem Landed.grown {l : Landing} {t' : TableMetadata} (landed : Landed r s l)
    (there : s.table = some t) (table : s'.table = some t') (same : t'.uuid = t.uuid)
    (grown : t.snapshots <:+ t'.snapshots) (uuids : s.uuids ⊆ s'.uuids)
    (drawn : s'.drawn = s.drawn) :
    Landed r s' l := by
  refine ⟨landed.admitted, landed.built, uuids landed.uuid, drawn ▸ landed.drawn,
    fun v is uuid => ?_⟩
  obtain rfl := Option.some.inj (table.symm.trans is)
  exact grown.subset (landed.kept t there (same ▸ uuid))

theorem Inv.peer {t' : TableMetadata} {x : Snapshot} {kept added : List ManifestFile}
    (inv : Inv r s) (there : s.table = some t) (same : t'.uuid = t.uuid)
    (grown : t'.snapshots = x :: t.snapshots) (fresh : x.id ∉ s.used)
    (manifests : x.manifests = kept ++ added)
    (old : kept.Sublist (t.currentSnapshot.map (·.manifests) |>.getD []))
    (foreign : ∀ m ∈ added, ∀ f ∈ m.files, f.path ∉ r.paths) :
    Inv r { s with table := some t', used := x.id :: s.used } := by
  have sound := inv.table t there
  have above : t.snapshots <:+ t'.snapshots := grown ▸ List.suffix_cons x t.snapshots
  have few (p : String) (own : p ∈ r.paths) := peer_entries manifests old foreign own
  refine ⟨fun v is => ?_, fun i mem => List.mem_cons_of_mem _ (inv.drawn i mem), fun c mem => ?_,
    inv.pending, fun l mem => (inv.landed l mem).grown there rfl same above (fun _ mem => mem) rfl,
    inv.apart⟩
  · obtain rfl := Option.some.inj is
    refine ⟨?_, ?_, same ▸ sound.uuid, ?_, ?_, ?_⟩
    all_goals rw [grown]
    · refine List.nodup_cons.mpr ⟨fun mem => ?_, sound.ids⟩
      obtain ⟨y, mem, (same : y.id = x.id)⟩ := List.mem_map.mp mem
      exact fresh (same ▸ sound.used y mem)
    · intro y mem
      obtain rfl | mem := List.mem_cons.mp mem
      · exact List.mem_cons_self
      · exact List.mem_cons_of_mem _ (sound.used y mem)
    · intro y mem own
      obtain rfl | mem := List.mem_cons.mp mem
      · exact absurd (inv.drawn _ own) fresh
      · exact same ▸ sound.own y mem own
    · refine clean_cons sound.clean fun _ below p own => List.count_eq_zero.mp ?_
      obtain none | ⟨y, mem, le⟩ := few p own
      · exact none
      · exact Nat.le_zero.mp (List.count_eq_zero.mpr (below y mem p own) ▸ le)
    · intro y mem p own
      obtain rfl | mem := List.mem_cons.mp mem
      · obtain none | ⟨z, mem, le⟩ := few p own
        · omega
        · exact le.trans (sound.once z mem p own)
      · exact sound.once y mem p own
  · obtain ⟨drawn, base, past, built⟩ := inv.posted c mem
    exact ⟨drawn, base, past.mono (fun _ mem => mem) (List.subset_cons_self _ _) rfl
      (older_of_grown there same above past.kept), built⟩

theorem Inv.alter {t' : TableMetadata} (inv : Inv r s) (there : s.table = some t)
    (same : t'.uuid = t.uuid) (kept : t'.snapshots = t.snapshots) :
    Inv r { s with table := some t' } := by
  have above : t.snapshots <:+ t'.snapshots := kept ▸ List.suffix_refl _
  refine ⟨fun v is => ?_, inv.drawn, fun c mem => ?_, inv.pending,
    fun l mem => (inv.landed l mem).grown there rfl same above (fun _ mem => mem) rfl, inv.apart⟩
  · obtain rfl := Option.some.inj is
    obtain ⟨ids, used, uuid, own, clean, once⟩ := inv.table t there
    exact ⟨kept ▸ ids, kept ▸ used, same ▸ uuid, kept ▸ same ▸ own, kept ▸ clean, kept ▸ once⟩
  · obtain ⟨drawn, base, past, built⟩ := inv.posted c mem
    exact ⟨drawn, base, past.mono (fun _ mem => mem) (fun _ mem => mem) rfl
      (older_of_grown there same above past.kept), built⟩

/-- Without the table nothing is claimed of it. -/
theorem Inv.drop (inv : Inv r s) : Inv r { s with table := none } := by
  refine ⟨nofun, inv.drawn, fun c mem => ?_, inv.pending, fun l mem => ?_, inv.apart⟩
  · obtain ⟨drawn, base, past, built⟩ := inv.posted c mem
    exact ⟨drawn, base, past.mono (fun _ mem => mem) (fun _ mem => mem) rfl nofun, built⟩
  · obtain ⟨admitted, built, uuid, drawn, -⟩ := inv.landed l mem
    exact ⟨admitted, built, uuid, drawn, nofun⟩

theorem Inv.create (inv : Inv r s) (fresh : t.uuid ∉ s.uuids) (empty : t.snapshots = []) :
    Inv r { s with table := some t, uuids := t.uuid :: s.uuids } := by
  have other {P : TableMetadata → Prop} {u : Nat} (known : u ∈ s.uuids) :
      ∀ v, some t = some v → v.uuid = u → P v := by
    intro v is uuid
    obtain rfl := Option.some.inj is
    exact absurd (uuid ▸ known) fresh
  refine ⟨fun v is => ?_, inv.drawn, fun c mem => ?_, inv.pending, fun l mem => ?_, inv.apart⟩
  · obtain rfl := Option.some.inj is
    refine ⟨?_, ?_, List.mem_cons_self, ?_, ?_, ?_⟩
    all_goals rw [empty]
    · exact List.nodup_nil
    · nofun
    · nofun
    · intro h older _
      obtain rfl := List.suffix_nil.mp older
      nofun
    · nofun
  · obtain ⟨drawn, base, past, built⟩ := inv.posted c mem
    exact ⟨drawn, base, past.mono (List.subset_cons_self _ _) (fun _ mem => mem) rfl
      (other past.uuid), built⟩
  · obtain ⟨admitted, built, uuid, drawn, -⟩ := inv.landed l mem
    exact ⟨admitted, built, List.mem_cons_of_mem _ uuid, drawn, other uuid⟩

/-- A posted commit is applied. The history it stands on is the whole one, so nothing
of this run had landed on this table before. -/
theorem Inv.land (inv : Inv r s) (there : s.table = some t) (posted : c ∈ s.posted)
    (admitted : t.admits c = true) : Inv r (s.land c t) := by
  have sound := inv.table t there
  obtain ⟨drawn, base, past, built⟩ := inv.posted c posted
  obtain rfl := past.whole inv built.main there admitted
  have above : t.snapshots <:+ (t.apply c).snapshots := List.suffix_cons c.snapshot t.snapshots
  have uuid := (admits_iff.mp admitted).1
  refine ⟨fun v is => ?_, inv.drawn, fun d mem => ?_, inv.pending, fun l mem => ?_, ?_⟩
  · obtain rfl := Option.some.inj is
    refine ⟨?_, ?_, sound.uuid, ?_, ?_, ?_⟩
    · refine List.nodup_cons.mpr ⟨fun mem => ?_, sound.ids⟩
      obtain ⟨y, mem, same⟩ := List.mem_map.mp mem
      exact (past.known y mem).2 (same ▸ drawn)
    · intro y mem
      obtain rfl | mem := List.mem_cons.mp mem
      · exact inv.drawn _ drawn
      · exact sound.used y mem
    · intro y mem own
      obtain rfl | mem := List.mem_cons.mp mem
      · exact ⟨⟨c, t⟩, List.mem_cons_self, rfl, rfl⟩
      · exact absurd own (past.known y mem).2
    · exact clean_cons sound.clean fun stranger => absurd drawn stranger
    · intro y mem p own
      obtain rfl | mem := List.mem_cons.mp mem
      · exact built.once p own
      · exact sound.once y mem p own
  · obtain ⟨drawn, base, past, built⟩ := inv.posted d mem
    exact ⟨drawn, base, past.mono (fun _ mem => mem) (fun _ mem => mem) rfl
      (older_of_grown there rfl above past.kept), built⟩
  · obtain rfl | mem := List.mem_cons.mp mem
    · refine ⟨admitted, built, sound.uuid, drawn, fun v is _ => ?_⟩
      obtain rfl := Option.some.inj is
      exact List.mem_cons_self
    · exact (inv.landed l mem).grown there rfl rfl above (fun _ mem => mem) rfl
  · refine List.nodup_cons.mpr ⟨fun mem => ?_, inv.apart⟩
    obtain ⟨l, mem, same⟩ := List.mem_map.mp mem
    have landed := inv.landed l mem
    exact (past.known _ (landed.kept t there same.symm)).2 landed.drawn

theorem Inv.drift (inv : Inv r s) (moves : Catalog.Drift r s s') : Inv r s' := by
  cases moves with
  | peer there same grown fresh manifests old foreign =>
      exact inv.peer there same grown fresh manifests old foreign
  | alter there same kept => exact inv.alter there same kept
  | drop => exact inv.drop
  | create _ fresh empty => exact inv.create fresh empty
  | land there flying admitted => exact inv.land there (inv.pending _ flying) admitted

theorem Past.drift {u : Nat} (past : Past s u base) (moves : Catalog.Drift r s s') :
    Past s' u base := by
  cases moves with
  | peer there same grown =>
      refine past.mono (fun _ mem => mem) (List.subset_cons_self _ _) rfl
        (older_of_grown there same ?_ past.kept)
      rw [grown]
      exact List.suffix_cons _ _
  | alter there same kept =>
      exact past.mono (fun _ mem => mem) (fun _ mem => mem) rfl
        (older_of_grown there same (kept ▸ List.suffix_refl _) past.kept)
  | drop => exact past.mono (fun _ mem => mem) (fun _ mem => mem) rfl nofun
  | @create t absent fresh empty =>
      refine past.mono (List.subset_cons_self _ _) (fun _ mem => mem) rfl fun v is uuid => ?_
      obtain rfl := Option.some.inj is
      exact absurd (uuid ▸ past.uuid) fresh
  | @land t c there =>
      exact past.mono (fun _ mem => mem) (fun _ mem => mem) rfl
        (older_of_grown there rfl (List.suffix_cons c.snapshot t.snapshots) past.kept)

/-! ## What the run knows -/

/-- No commit of this run was applied, and none can be. -/
def Idle (s : Catalog) : Prop := s.pending = [] ∧ s.landed = []

/-- Files are only deleted when no commit was applied and none can be. -/
def Safe (r : Run) (s : Catalog) : Prop := Inv r s ∧ (s.deleted ≠ [] → Idle s)

/-- Between attempts. -/
structure At (r : Run) (ambiguous : Bool) (tried : List Int) (s : Catalog) : Prop where
  inv : Inv r s
  kept : s.deleted = []
  tried : ∀ i, i ∈ tried ↔ i ∈ s.drawn
  idle : ambiguous = false → Idle s

/-- The metadata in hand: a past of the table, with none of the run's paths. -/
structure Read (r : Run) (md : TableMetadata) (s : Catalog) : Prop where
  past : Past s md.uuid md.snapshots
  clean : Clean r md.snapshots

theorem Drift.deleted (moves : Catalog.Drift r s s') : s'.deleted = s.deleted := by
  cases moves <;> rfl

theorem Drift.drawn (moves : Catalog.Drift r s s') : s'.drawn = s.drawn := by
  cases moves <;> rfl

theorem Idle.drift (idle : Idle s) (moves : Catalog.Drift r s s') : Idle s' := by
  cases moves with
  | peer | alter | drop | create => exact idle
  | land _ flying => exact absurd flying (idle.1 ▸ List.not_mem_nil)

theorem Safe.drift (safe : Safe r s) (moves : Catalog.Drift r s s') : Safe r s' :=
  ⟨safe.1.drift moves, fun swept => (safe.2 (Drift.deleted moves ▸ swept)).drift moves⟩

theorem Read.drift {md : TableMetadata} (read : Read r md s) (moves : Catalog.Drift r s s') :
    Read r md s' := ⟨read.past.drift moves, read.clean⟩

namespace At

variable {ambiguous : Bool} {tried : List Int}

theorem drift (here : At r ambiguous tried s) (moves : Catalog.Drift r s s') :
    At r ambiguous tried s' :=
  ⟨here.inv.drift moves, Drift.deleted moves ▸ here.kept, Drift.drawn moves ▸ here.tried,
    fun clear => (here.idle clear).drift moves⟩

theorem safe (here : At r ambiguous tried s) : Safe r s :=
  ⟨here.inv, fun swept => absurd here.kept swept⟩

/-- A freshly read table that has none of the run's snapshots. -/
theorem read (here : At r ambiguous tried s) (there : s.table = some t)
    (none : tried.any (snapshotLanded t) = false) : Read r t s := by
  have sound := here.inv.table t there
  have foreign (x : Snapshot) (mem : x ∈ t.snapshots) : x.id ∉ s.drawn := by
    intro own
    have missed := List.any_eq_false.mp none x.id ((here.tried x.id).mpr own)
    exact missed (List.any_eq_true.mpr ⟨x, mem, decide_eq_true rfl⟩)
  refine ⟨⟨sound.uuid, fun x mem => ⟨sound.used x mem, foreign x mem⟩, fun u is _ => ?_⟩,
    sound.clean _ (List.suffix_refl _) foreign⟩
  obtain rfl := Option.some.inj (there.symm.trans is)
  exact List.suffix_refl _

/-- One of the run's snapshots in a table's history was applied. -/
theorem landed (here : At r ambiguous tried s) (there : s.table = some t)
    (found : tried.any (snapshotLanded t) = true) : s.landed ≠ [] := by
  obtain ⟨i, mem, found⟩ := List.any_eq_true.mp found
  obtain ⟨x, inside, same⟩ := List.any_eq_true.mp found
  obtain rfl := of_decide_eq_true same
  obtain ⟨l, mem, -, -⟩ := (here.inv.table t there).own x inside ((here.tried _).mp mem)
  exact List.ne_nil_of_mem mem

end At

theorem Drift.landed (moves : Catalog.Drift r s s') (landed : s.landed ≠ []) : s'.landed ≠ [] := by
  cases moves with
  | peer | alter | drop | create => exact landed
  | land => exact List.cons_ne_nil _ _

/-! ## What one attempt builds -/

theorem deletes_paths {fid : Int} {files : List FileDone} {deletes : List DataFile}
    (built : files.mapM (Run.deleteDataFile fid) = .ok deletes) :
    deletes.map (·.path) = files.flatMap fun f => (f.delete.map (·.path)).toList := by
  induction files generalizing deletes with
  | nil =>
      obtain rfl : [] = deletes := Except.ok.inj built
      rfl
  | cons f files ih =>
      rw [List.mapM_cons] at built
      cases first : Run.deleteDataFile fid f with
      | error e => rw [first] at built; nomatch built
      | ok d =>
          cases rest : files.mapM (Run.deleteDataFile fid) with
          | error e => rw [first, rest] at built; nomatch built
          | ok ds =>
              rw [first, rest] at built
              obtain rfl : d :: ds = deletes := Except.ok.inj built
              have own : (f.delete.map (·.path)).toList = [d.path] := by
                unfold Run.deleteDataFile at first
                cases companion : f.delete with
                | none => rw [companion] at first; nomatch first
                | some k =>
                    rw [companion] at first
                    dsimp only at first
                    split at first
                    · nomatch first
                    · obtain rfl := Except.ok.inj first
                      rfl
              rw [List.map_cons, List.flatMap_cons, own, ih rest, List.singleton_append]

/-- The paths of the run's own manifests. -/
def ownEntries (r : Run) (deletes : List DataFile) : List String :=
  r.files.map (·.path) ++ deletes.map (·.path)

theorem ownManifests_entries (deletes : List DataFile) (i : Int) (attempt : Nat) :
    ((r.ownManifests deletes i attempt).flatMap fun m => m.files.map (·.path)) =
      ownEntries r deletes := by
  have data : r.dataFiles.map (·.path) = r.files.map (·.path) := List.map_map ..
  rw [Run.ownManifests, List.flatMap_cons, ownEntries]
  dsimp only
  rw [data]
  split
  · rename_i none
    rw [none, List.flatMap_nil, List.map_nil]
  · rw [List.flatMap_singleton]

theorem count_paths (files : List FileDone) (p : String) :
    (files.flatMap FileDone.paths).count p = (files.map (·.path)).count p +
      (files.flatMap fun f => (f.delete.map (·.path)).toList).count p := by
  induction files with
  | nil => rfl
  | cons f files ih =>
      rw [List.flatMap_cons, List.map_cons, List.flatMap_cons, List.count_append, List.count_append,
        ih, FileDone.paths, List.count_cons, List.count_cons]
      omega

/-- The run's own manifests count each of its paths once at most. -/
theorem ownEntries_count {deletes : List DataFile} (ready : r.deleteDataFiles = .ok deletes)
    (p : String) : (ownEntries r deletes).count p ≤ 1 := by
  have distinct : r.paths.count p ≤ 1 := List.nodup_iff_count_le_one.mp r.distinct p
  rw [Run.paths, count_paths] at distinct
  rw [ownEntries, List.count_append]
  unfold Run.deleteDataFiles at ready
  split at ready
  · split at ready
    · nomatch ready
    · obtain rfl := Except.ok.inj ready
      rw [List.map_nil, List.count_nil]
      omega
  · split at ready
    · nomatch ready
    · rw [deletes_paths ready]
      exact distinct

/-- Every manifest of the snapshot a commit is built on, when its mode keeps them. -/
def parentManifests (r : Run) (md : TableMetadata) : List ManifestFile :=
  if r.mode = .append ∨ r.mode = .merge then (md.currentSnapshot.map (·.manifests)).getD [] else []

theorem commitOf_built {deletes : List DataFile} {md : TableMetadata} {i schemaId specId : Int}
    {attempt : Nat} (ready : r.deleteDataFiles = .ok deletes) (clean : Clean r md.snapshots) :
    Built r md.snapshots (r.commitOf md i attempt
      (parentManifests r md ++ r.ownManifests deletes i attempt) schemaId specId) := by
  have foreign (p : String) (own : p ∈ r.paths) :
      p ∉ (parentManifests r md).flatMap fun m => m.files.map (·.path) := by
    unfold parentManifests
    split
    · cases top : md.currentSnapshot with
      | none => nofun
      | some x => exact clean x (List.mem_of_mem_head? top) p own
    · nofun
  have count (p : String) (own : p ∈ r.paths) :
      (r.commitOf md i attempt (parentManifests r md ++ r.ownManifests deletes i attempt) schemaId
        specId).snapshot.entries.count p = (ownEntries r deletes).count p := by
    show (List.flatMap _ (_ ++ _)).count p = _
    rw [List.flatMap_append, List.count_append, List.count_eq_zero.mpr
      (foreign p own), Nat.zero_add,
      ownManifests_entries]
  refine ⟨rfl, rfl, fun keeps x top => ?_, fun p own => (count p own).trans_le
    (ownEntries_count ready p),
    fun f mem => ?_, rfl⟩
  · have parents : parentManifests r md = x.manifests := by
      rw [parentManifests, if_pos keeps, TableMetadata.currentSnapshot, top]
      rfl
    exact parents ▸ List.prefix_append _ _
  · have own : f.path ∈ r.paths := List.mem_flatMap.mpr ⟨f, mem, List.mem_cons_self⟩
    have there : 0 < (ownEntries r deletes).count f.path :=
      List.count_pos_iff.mpr (List.mem_append_left _ (List.mem_map_of_mem mem))
    have most := ownEntries_count ready f.path
    rw [count f.path own]
    omega

/-! ## The run's calls -/

section calls

variable {ambiguous : Bool} {tried : List Int} {md : TableMetadata}

theorem At.unclear (here : At r ambiguous tried s) : At r true tried s :=
  ⟨here.inv, here.kept, here.tried, nofun⟩

/-- Between attempts, with the metadata the next one is built on. -/
def Ready (r : Run) (ambiguous : Bool) (tried : List Int) (md : TableMetadata) (s : Catalog) :
    Prop :=
  At r ambiguous tried s ∧ Read r md s

theorem Ready.drift (ready : Ready r ambiguous tried md s) (moves : Catalog.Drift r s s') :
    Ready r ambiguous tried md s' := ⟨ready.1.drift moves, ready.2.drift moves⟩

theorem Ready.pure {α : Type} {Q : α → Prop} {a : α} (ready : Ready r ambiguous tried md s)
    (fact : Q a) :
    (Catalog.env r).Meets (Safe r) (fun a s => Ready r ambiguous tried md s ∧ Q a) (.pure a) s :=
  .pure (P := Ready r ambiguous tried md) (fun _ _ here moves => here.drift moves) ready
    (fun _ here => here.1.safe) fun _ here => ⟨here, fact⟩

/-- A call that is no commit, no delete and draws no id. -/
theorem Ready.ask {α : Type} {Q : α → Catalog → Prop} {op : Call} {k : Answer → Client α}
    (ready : Ready r ambiguous tried md s) (quiet : ∀ s ans s', Catalog.Serve s op ans s' → s' = s)
    (next : ∀ s ans, Ready r ambiguous tried md s → Catalog.Serve s op ans s →
      (Catalog.env r).Meets (Safe r) Q (k ans) s) :
    (Catalog.env r).Meets (Safe r) Q (.call op k) s := by
  refine .call (P := Ready r ambiguous tried md) (fun _ _ here moves => here.drift moves) ready
    (fun _ here => here.1.safe) fun s ans s' here served => ?_
  obtain rfl := quiet s ans s' served
  exact next s' ans here served

/-- What was inherited is all of the parent's. -/
def Parents (r : Run) (md : TableMetadata) (out : Except String (List ManifestFile)) : Prop :=
  ∀ ms, out = .ok ms → ms = parentManifests r md

theorem meets_inherited (ready : Ready r ambiguous tried md s) :
    (Catalog.env r).Meets (Safe r) (fun out s => Ready r ambiguous tried md s ∧ Parents r md out)
      (inherited r md) s := by
  have whole {ms : List ManifestFile} (same : ms = parentManifests r md) : Parents r md (.ok ms) :=
    fun ms' is => Except.ok.inj is ▸ same
  unfold inherited
  by_cases keeps : r.mode = .append ∨ r.mode = .merge
  · rw [if_pos keeps]
    cases top : md.currentSnapshot with
    | none => exact ready.pure (whole (by rw [parentManifests, if_pos keeps, top]; rfl))
    | some x =>
        refine ready.ask (fun s ans s' served => by cases served <;> rfl) fun s ans ready served =>
          ?_
        cases served with
        | listed => exact ready.pure (whole (by rw [parentManifests, if_pos keeps, top]; rfl))
        | failed => exact ready.pure (Q := Parents r md) nofun
  · rw [if_neg keeps]
    exact ready.pure (whole (by rw [parentManifests, if_neg keeps]))

theorem meets_putAll (ready : Ready r ambiguous tried md s) (keys : List String) :
    (Catalog.env r).Meets (Safe r) (fun _ s => Ready r ambiguous tried md s ∧ True) (putAll keys)
    s := by
  induction keys generalizing s with
  | nil => exact ready.pure (Q := fun _ => True) trivial
  | cons key keys ih =>
      refine ready.ask (fun s ans s' served => by cases served <;> rfl) fun s ans ready served => ?_
      cases served with
      | put => exact ih ready
      | failed => exact ready.pure (Q := fun _ => True) trivial

/-- What building an attempt leaves: a commit that stands on the metadata in hand. -/
def BuiltOn (r : Run) (md : TableMetadata) (i : Int) (out : Except String Commit) : Prop :=
  ∀ c, out = .ok c → c.uuid = md.uuid ∧ c.snapshot.id = i ∧ Built r md.snapshots c

theorem builtOn_error {i : Int} {e : String} : BuiltOn r md i (.error e) := by
  intro c same
  cases same

theorem meets_build {deletes : List DataFile} {schemaId specId i : Int} {attempt : Nat}
    (companions : r.deleteDataFiles = .ok deletes) (ready : Ready r ambiguous tried md s) :
    (Catalog.env r).Meets (Safe r) (fun out s => Ready r ambiguous tried md s ∧ BuiltOn r md i out)
      (build r deletes schemaId specId md i attempt) s := by
  refine (meets_inherited ready).bind fun out s post => ?_
  obtain ⟨ready, parents⟩ := post
  match out with
  | .error e => exact ready.pure builtOn_error
  | .ok ms =>
      obtain rfl := parents ms rfl
      refine (meets_putAll ready _).bind fun out s post => ?_
      obtain ⟨ready, -⟩ := post
      match out with
      | .error e => exact ready.pure builtOn_error
      | .ok () =>
          refine ready.pure (Q := BuiltOn r md i) fun c same => ?_
          obtain rfl := Except.ok.inj same
          exact ⟨rfl, rfl, commitOf_built companions ready.2.clean⟩

/-- A commit leaves the client. -/
theorem Inv.post {pending : List Commit} (inv : Inv r s) (drawn : c.snapshot.id ∈ s.drawn)
    (past : Past s c.uuid base) (built : Built r base c) (flying : ∀ d ∈ pending,
      d ∈ c :: s.posted) :
    Inv r { s.post c with pending := pending } := by
  refine ⟨fun t there => ?_, inv.drawn, fun d mem => ?_, flying, fun l mem => ?_, inv.apart⟩
  · obtain ⟨ids, used, uuid, own, clean, once⟩ := inv.table t there
    exact ⟨ids, used, uuid, own, clean, once⟩
  · obtain rfl | mem := List.mem_cons.mp mem
    · exact ⟨drawn, base, ⟨past.uuid, past.known, past.kept⟩, built⟩
    · obtain ⟨drawn, base, past, built⟩ := inv.posted d mem
      exact ⟨drawn, base, ⟨past.uuid, past.known, past.kept⟩, built⟩
  · obtain ⟨admitted, built, uuid, drawn, kept⟩ := inv.landed l mem
    exact ⟨admitted, built, uuid, drawn, kept⟩

/-- What one attempt's answer says. -/
def Answered (r : Run) (ambiguous : Bool) (tried : List Int) : Except String CommitTry →
    Catalog → Prop
  | .ok .done, s => At r true tried s ∧ s.landed ≠ []
  | .ok .conflict, s => At r ambiguous tried s
  | .ok (.unknown _), s => At r true tried s
  | .error _, s => At r ambiguous tried s

theorem Answered.drift {out : Except String CommitTry} (answered : Answered r ambiguous tried out s)
    (moves : Catalog.Drift r s s') : Answered r ambiguous tried out s' := by
  match out with
  | .ok .done => exact ⟨answered.1.drift moves, Drift.landed moves answered.2⟩
  | .ok .conflict => exact At.drift answered moves
  | .ok (.unknown _) => exact At.drift answered moves
  | .error _ => exact At.drift answered moves

theorem Answered.safe {out : Except String CommitTry}
    (answered : Answered r ambiguous tried out s) :
    Safe r s := by
  match out with
  | .ok .done => exact answered.1.safe
  | .ok .conflict => exact At.safe answered
  | .ok (.unknown _) => exact At.safe answered
  | .error _ => exact At.safe answered

theorem Answered.pure {out : Except String CommitTry}
    (answered : Answered r ambiguous tried out s) :
    (Catalog.env r).Meets (Safe r) (Answered r ambiguous tried) (.pure out) s :=
  .pure (fun _ _ here moves => Answered.drift here moves) answered (fun _ here => here.safe)
    fun _ here => here

theorem meets_commitTable (ready : Ready r ambiguous tried md s) (uuid : c.uuid = md.uuid)
    (own : c.snapshot.id ∈ tried) (built : Built r md.snapshots c) :
    (Catalog.env r).Meets (Safe r) (Answered r ambiguous tried) (commitTable c) s := by
  refine .call (P := Ready r ambiguous tried md) (fun _ _ here moves => here.drift moves) ready
    (fun _ here => here.1.safe) fun s ans s' here served => ?_
  obtain ⟨here, read⟩ := here
  have drawn := (here.tried _).mp own
  have past : Past s c.uuid md.snapshots := uuid ▸ read.past
  have flying (d : Commit) (mem : d ∈ s.pending) : d ∈ c :: s.posted :=
    List.mem_cons_of_mem _ (here.inv.pending d mem)
  have posted : At r ambiguous tried (s.post c) :=
    ⟨here.inv.post drawn past built flying, here.kept, here.tried, here.idle⟩
  have open_ : At r true tried { s.post c with pending := c :: s.pending } := by
    refine ⟨here.inv.post drawn past built fun d mem => ?_, here.kept, here.tried, nofun⟩
    obtain rfl | mem := List.mem_cons.mp mem
    · exact List.mem_cons_self
    · exact flying d mem
  cases served with
  | @accepted t _ code text there admitted said =>
      have after : At r true tried ((s.post c).land c t) :=
        ⟨posted.inv.land there List.mem_cons_self admitted, here.kept, here.tried, nofun⟩
      have done : tryOf code text = .ok .done := by rw [tryOf, said]
      exact Answered.pure (done ▸ ⟨after, List.cons_ne_nil _ _⟩)
  | @rejected _ code text said =>
      obtain said | said := said
      · have conflict : tryOf code text = .ok .conflict := by rw [tryOf, said]
        exact Answered.pure (conflict ▸ posted)
      · have failed : tryOf code text = .error s!"iceberg catalog commit: {code} {text}" := by
          rw [tryOf, said]
        exact Answered.pure (failed ▸ posted)
  | @unclear _ code text said =>
      have unknown : tryOf code text = .ok
        (.unknown s!"iceberg catalog commit: {code} {text}") := by
        rw [tryOf, said]
      exact Answered.pure (unknown ▸ open_)
  | unheard =>
      have lost (e : String) : Answered r ambiguous tried (.ok (.unknown e)) _ := open_
      exact (lost _).pure
  | failed asked => exact absurd rfl (asked c)

/-- What a reload finds: a table without the run's snapshots, or one of them. -/
def Loaded (r : Run) (ambiguous : Bool) (tried : List Int)
    (out : Except String (Option TableMetadata))
    (s : Catalog) : Prop :=
  At r ambiguous tried s ∧ ∀ t, out = .ok (some t) →
    (tried.any (snapshotLanded t) = false → Read r t s) ∧
    (tried.any (snapshotLanded t) = true → s.landed ≠ [])

theorem meets_loadTable (here : At r ambiguous tried s) :
    (Catalog.env r).Meets (Safe r) (Loaded r ambiguous tried) loadTable s := by
  have close {out : Except String (Option TableMetadata)} {s : Catalog}
      (loaded : Loaded r ambiguous tried out s) :
      (Catalog.env r).Meets (Safe r) (Loaded r ambiguous tried) (.pure out) s := by
    refine .pure (P := Loaded r ambiguous tried out) (fun s s' here moves => ?_) loaded
      (fun _ here => here.1.safe) fun _ here => here
    refine ⟨here.1.drift moves, fun t is => ⟨fun none => ?_, fun found => ?_⟩⟩
    · exact ((here.2 t is).1 none).drift moves
    · exact Drift.landed moves ((here.2 t is).2 found)
  refine .call (P := At r ambiguous tried) (fun _ _ here moves => here.drift moves) here
    (fun _ here => here.safe) fun s ans s' here served => ?_
  cases served with
  | loaded =>
      refine close ⟨here, fun t is => ?_⟩
      have there : s.table = some t := Except.ok.inj is
      exact ⟨here.read there, here.landed there⟩
  | failed => exact close ⟨here, nofun⟩

/-! ## The loop -/

/-- What a commit's end says. -/
structure Concluded (r : Run) (ended : Ended) (s : Catalog) : Prop where
  inv : Inv r s
  kept : s.deleted = []
  done : ended.result = .ok .done → s.landed ≠ []
  idle : ∀ e, ended.result = .error e → ended.ambiguous = false → Idle s

theorem Concluded.drift {ended : Ended} (concluded : Concluded r ended s)
    (moves : Catalog.Drift r s s') : Concluded r ended s' :=
  ⟨concluded.inv.drift moves, Drift.deleted moves ▸ concluded.kept,
    fun done => Drift.landed moves (concluded.done done),
    fun e failed clear => (concluded.idle e failed clear).drift moves⟩

theorem Concluded.pure {ended : Ended} (concluded : Concluded r ended s) :
    (Catalog.env r).Meets (Safe r) (Concluded r) (.pure ended) s :=
  .pure (fun _ _ here moves => Concluded.drift here moves) concluded
    (fun _ here => ⟨here.inv, fun swept => absurd here.kept swept⟩) fun _ here => here

/-- A failure, kept from the sweep when an earlier attempt may still land. -/
theorem At.failure (here : At r ambiguous tried s) (e : String) :
    Concluded r (failure ambiguous e) s := by
  refine ⟨here.inv, here.kept, ?_, fun e _ clear => here.idle clear⟩
  cases ambiguous <;> nofun

theorem At.error (here : At r ambiguous tried s) (e : String) :
    Concluded r ⟨.error e, ambiguous⟩ s :=
  ⟨here.inv, here.kept, nofun, fun _ _ clear => here.idle clear⟩

theorem At.unknown (here : At r true tried s) (e : String) (flag : Bool) :
    Concluded r ⟨.ok (.unknown e), flag⟩ s := ⟨here.inv, here.kept, nofun, nofun⟩

theorem At.done (here : At r true tried s) (landed : s.landed ≠ []) (flag : Bool) :
    Concluded r ⟨.ok .done, flag⟩ s := ⟨here.inv, here.kept, fun _ => landed, nofun⟩

/-- A random id nobody has chosen. -/
theorem Ready.draw {i : Int} (ready : Ready r ambiguous tried md s) (fresh : i ∉ s.used) :
    Ready r ambiguous (tried ++ [i]) md { s with used := i :: s.used, drawn := i :: s.drawn } := by
  obtain ⟨here, read⟩ := ready
  have inv := here.inv
  have other {j : Int} (known : j ∈ s.used) (not_drawn : j ∉ s.drawn) : j ∉ i :: s.drawn := by
    refine fun mem => (List.mem_cons.mp mem).elim (fun same => fresh (same ▸ known)) not_drawn
  have past {u : Nat} {base : List Snapshot} (past : Past s u base) :
      Past { s with used := i :: s.used, drawn := i :: s.drawn } u base :=
    ⟨past.uuid, fun x mem => ⟨List.mem_cons_of_mem _ (past.known x mem).1,
      other (past.known x mem).1 (past.known x mem).2⟩, past.kept⟩
  refine ⟨⟨⟨fun t there => ?_, fun j mem => ?_, fun c mem => ?_, inv.pending, fun l mem => ?_,
    inv.apart⟩, here.kept, fun j => ?_, here.idle⟩, past read.past, read.clean⟩
  · obtain ⟨ids, used, uuid, own, clean, once⟩ := inv.table t there
    refine ⟨ids, fun x mem => List.mem_cons_of_mem _ (used x mem), uuid, fun x mem mine => ?_,
      fun h older foreign => clean h older fun x mem drawn =>
        foreign x mem (List.mem_cons_of_mem _ drawn),
      once⟩
    obtain same | mine := List.mem_cons.mp mine
    · exact absurd (same ▸ used x mem) fresh
    · exact own x mem mine
  · obtain rfl | mem := List.mem_cons.mp mem
    · exact List.mem_cons_self
    · exact List.mem_cons_of_mem _ (inv.drawn j mem)
  · obtain ⟨drawn, base, stands, built⟩ := inv.posted c mem
    exact ⟨List.mem_cons_of_mem _ drawn, base, past stands, built⟩
  · obtain ⟨admitted, built, uuid, drawn, kept⟩ := inv.landed l mem
    exact ⟨admitted, built, uuid, List.mem_cons_of_mem _ drawn, kept⟩
  · rw [List.mem_append, List.mem_singleton, here.tried j, List.mem_cons, or_comm]

/-- One attempt after another: a reload decides whether there is a next one. -/
theorem meets_commitLoop {deletes : List DataFile} {schemaId specId : Int} {left attempt : Nat}
    (companions : r.deleteDataFiles = .ok deletes) (ready : Ready r ambiguous tried md s) :
    (Catalog.env r).Meets (Safe r) (Concluded r)
      (commitLoop r deletes schemaId specId left attempt ambiguous tried md) s := by
  induction left generalizing attempt ambiguous tried md s with
  | zero => exact (ready.1.failure _).pure
  | succ left ih =>
      unfold commitLoop
      split
      · exact (ready.1.failure _).pure
      refine .call (P := Ready r ambiguous tried md) (fun _ _ here moves => here.drift moves) ready
        (fun _ here => here.1.safe) fun s ans s' ready served => ?_
      cases served with
      | failed => exact (ready.1.error _).pure
      | @id known i fresh =>
      have ready := ready.draw fresh
      show (Catalog.env r).Meets _ _ (ite _ _ _) _
      split
      · exact (ready.1.error _).pure
      refine (meets_build companions ready).bind fun out s post => ?_
      obtain ⟨ready, built⟩ := post
      match out with
      | .error e => exact (ready.1.error _).pure
      | .ok c =>
      obtain ⟨uuid, own, built⟩ := built c rfl
      have mine : c.snapshot.id ∈ tried ++ [i] := own ▸ List.mem_append_right _ List.mem_cons_self
      refine (meets_commitTable ready uuid mine built).bind fun out s answered => ?_
      match out with
      | .error e => exact (At.failure answered _).pure
      | .ok .done => exact (answered.1.done answered.2 _).pure
      | .ok (.unknown e) =>
          refine (meets_loadTable answered).bind fun out s loaded => ?_
          match out with
          | .error e => exact (loaded.1.unknown _ _).pure
          | .ok none => exact (loaded.1.unknown _ _).pure
          | .ok (some fresh) =>
              obtain ⟨absent, found⟩ := loaded.2 fresh rfl
              dsimp only
              split
              · exact (loaded.1.done (found (by assumption)) _).pure
              split
              · exact (loaded.1.unknown _ _).pure
              · exact ih ⟨loaded.1, absent (Bool.eq_false_iff.mpr (by assumption))⟩
      | .ok .conflict =>
          refine (meets_loadTable answered).bind fun out s loaded => ?_
          match out with
          | .error e => exact (loaded.1.unclear.unknown _ _).pure
          | .ok none => exact (loaded.1.unclear.unknown _ _).pure
          | .ok (some fresh) =>
              obtain ⟨absent, found⟩ := loaded.2 fresh rfl
              dsimp only
              split
              · exact (loaded.1.unclear.done (found (by assumption)) _).pure
              · exact ih ⟨loaded.1, absent (Bool.eq_false_iff.mpr (by assumption))⟩

end calls

/-! ## Finalizing -/

/-- Nothing of the run was or can be applied; files may go. -/
def Unused (r : Run) (s : Catalog) : Prop := Inv r s ∧ Idle s

theorem Unused.drift (unused : Unused r s) (moves : Catalog.Drift r s s') : Unused r s' :=
  ⟨unused.1.drift moves, unused.2.drift moves⟩

theorem Unused.safe (unused : Unused r s) : Safe r s := ⟨unused.1, fun _ => unused.2⟩

theorem Unused.deleted (unused : Unused r s) (key : String) :
    Unused r { s with deleted := key :: s.deleted } := by
  obtain ⟨inv, idle⟩ := unused
  refine ⟨⟨fun t there => ?_, inv.drawn, fun c mem => ?_, inv.pending, fun l mem => ?_, inv.apart⟩,
    idle⟩
  · obtain ⟨ids, used, uuid, own, clean, once⟩ := inv.table t there
    exact ⟨ids, used, uuid, own, clean, once⟩
  · obtain ⟨drawn, base, past, built⟩ := inv.posted c mem
    exact ⟨drawn, base, ⟨past.uuid, past.known, past.kept⟩, built⟩
  · obtain ⟨admitted, built, uuid, drawn, kept⟩ := inv.landed l mem
    exact ⟨admitted, built, uuid, drawn, kept⟩

theorem meets_deleteAll (unused : Unused r s) (keys : List String) :
    (Catalog.env r).Meets (Safe r) (fun _ s => Unused r s) (deleteAll keys) s := by
  induction keys generalizing s with
  | nil =>
      exact .pure (fun _ _ here moves => Unused.drift here moves) unused (fun _ here => here.safe)
        fun _ here => here
  | cons key keys ih =>
      refine .call (fun _ _ here moves => Unused.drift here moves) unused (fun _ here => here.safe)
        fun s ans s' here served => ?_
      cases served with
      | deleted => exact ih (here.deleted key)
      | failed _ kept => exact absurd rfl (kept key)

/-- What a run reports. -/
def Reported (r : Run) (rows : Nat) (out : Except String Unit) (s : Catalog) : Prop :=
  Safe r s ∧ (out = .ok () → rows ≠ 0 → s.landed ≠ [])

theorem Reported.drift {rows : Nat} {out : Except String Unit} (reported : Reported r rows out s)
    (moves : Catalog.Drift r s s') : Reported r rows out s' :=
  ⟨reported.1.drift moves, fun ok some => Drift.landed moves (reported.2 ok some)⟩

/-- The marker is released, and the run returns. -/
theorem Reported.release {rows : Nat} {out : Except String Unit}
    (reported : Reported r rows out s) :
    (Catalog.env r).Meets (Safe r) (Reported r rows) (.call .release fun _ => .pure out) s := by
  refine .call (P := Reported r rows out) (fun _ _ here moves => Reported.drift here moves) reported
    (fun _ here => here.1) fun s ans s' here served => ?_
  have same : s' = s := by cases served <;> rfl
  exact .pure (P := Reported r rows out) (fun _ _ here moves =>
    Reported.drift here moves) (same ▸ here)
    (fun _ here => here.1) fun _ here => here

/-- The catalog when the run has loaded its table: the run has written nothing to it. -/
structure Prepared (r : Run) (md : TableMetadata) (s : Catalog) : Prop where
  table : s.table = some md
  ids : (md.snapshots.map (·.id)).Nodup
  used : ∀ x ∈ md.snapshots, x.id ∈ s.used
  uuid : md.uuid ∈ s.uuids
  clean : Clean r md.snapshots
  untouched : s.pending = [] ∧ s.posted = [] ∧ s.landed = [] ∧ s.deleted = [] ∧ s.drawn = []

theorem Prepared.ready {md : TableMetadata} (prepared : Prepared r md s) :
    Ready r false [] md s := by
  obtain ⟨table, ids, used, uuid, clean, pending, posted, landed, deleted, drawn⟩ := prepared
  have foreign (i : Int) : i ∉ s.drawn := drawn ▸ List.not_mem_nil
  have only {t : TableMetadata} (there : s.table = some t) : t = md :=
    Option.some.inj (there.symm.trans table)
  refine ⟨⟨⟨fun t there => ?_, fun i mem => absurd mem (foreign i), ?_, ?_, ?_, ?_⟩,
    deleted, fun i => ?_,
    fun _ => ⟨pending, landed⟩⟩, ⟨uuid, fun x mem => ⟨used x mem, foreign _⟩, fun t there _ => ?_⟩,
      clean⟩
  · obtain rfl := only there
    refine ⟨ids, used, uuid, fun x _ own => absurd own (foreign _), fun h older _ x mem =>
      clean x (older.subset mem), fun x mem p own => ?_⟩
    rw [List.count_eq_zero.mpr (clean x mem p own)]
    exact Nat.zero_le 1
  · intro c mem
    rw [posted] at mem
    cases mem
  · intro c mem
    rw [pending] at mem
    cases mem
  · intro l mem
    rw [landed] at mem
    cases mem
  · rw [landed]; exact List.nodup_nil
  · rw [drawn]
  · obtain rfl := only there
    exact List.suffix_refl _

/-- A commit's result: done when one landed, an error when none did or can. -/
def Settled (r : Run) (out : Except String CommitEnd) (s : Catalog) : Prop :=
  Inv r s ∧ s.deleted = [] ∧ (out = .ok .done → s.landed ≠ []) ∧ ∀ e, out = .error e → Idle s

theorem Settled.drift {out : Except String CommitEnd} (settled : Settled r out s)
    (moves : Catalog.Drift r s s') : Settled r out s' :=
  ⟨settled.1.drift moves, Drift.deleted moves ▸ settled.2.1,
    fun done => Drift.landed moves (settled.2.2.1 done), fun e failed =>
      (settled.2.2.2 e failed).drift moves⟩

theorem Settled.safe {out : Except String CommitEnd} (settled : Settled r out s) : Safe r s :=
  ⟨settled.1, fun swept => absurd settled.2.1 swept⟩

theorem Settled.pure {out : Except String CommitEnd} (settled : Settled r out s) :
    (Catalog.env r).Meets (Safe r) (Settled r) (.pure out) s :=
  .pure (fun _ _ here moves => Settled.drift here moves) settled (fun _ here => here.safe)
    fun _ here => here

theorem meets_commit {md : TableMetadata} (prepared : Prepared r md s) :
    (Catalog.env r).Meets (Safe r) (Settled r) (commit r md) s := by
  have ready := prepared.ready
  have inner : (Catalog.env r).Meets (Safe r) (Concluded r) (commitInner r md) s := by
    unfold commitInner
    split
    · exact (ready.1.error _).pure
    · exact meets_commitLoop (by assumption) ready
  refine inner.bind fun ended s concluded => ?_
  obtain ⟨inv, kept, done, idle⟩ := concluded
  match ended with
  | ⟨.ok .done, _⟩ => exact Settled.pure ⟨inv, kept, fun _ => done rfl, nofun⟩
  | ⟨.ok (.unknown e), _⟩ => exact Settled.pure ⟨inv, kept, nofun, nofun⟩
  | ⟨.error e, true⟩ => exact Settled.pure ⟨inv, kept, nofun, nofun⟩
  | ⟨.error e, false⟩ => exact Settled.pure ⟨inv, kept, nofun, fun _ _ => idle e rfl rfl⟩

theorem meets_finalize {md : TableMetadata} {rows : Nat} (prepared : Prepared r md s) :
    (Catalog.env r).Meets (Safe r) (Reported r rows) (finalize r md rows) s := by
  have swept {out : Except String Unit} (silent : out = .ok () → rows ≠ 0 → False) {s : Catalog}
      (unused : Unused r s) : (Catalog.env r).Meets (Safe r) (Reported r rows)
        ((sweep r.files).bind fun _ => .call .release fun _ => .pure out) s :=
    (meets_deleteAll unused _).bind fun _ s unused =>
      Reported.release ⟨unused.safe, fun ok some => (silent ok some).elim⟩
  unfold finalize
  split
  · rename_i none
    exact swept (fun _ some => some none) ⟨prepared.ready.1.inv, prepared.ready.1.idle rfl⟩
  · refine (meets_commit prepared).bind fun out s settled => ?_
    match out with
    | .ok .done => exact Reported.release ⟨settled.safe, fun _ _ => settled.2.2.1 rfl⟩
    | .ok (.unknown e) => exact Reported.release ⟨settled.safe, nofun⟩
    | .error e =>
        have failed : (.error e : Except String Unit) = .ok () → rows ≠ 0 → False := nofun
        exact swept failed ⟨settled.1, settled.2.2.2 e rfl⟩

/-- Once a delete was asked for, it stays asked for. -/
theorem deleted_kept {α : Type} {p p' : Client α} (run : (Catalog.env r).Reaches (s, p) (s', p'))
    (swept : s.deleted ≠ []) : s'.deleted ≠ [] := by
  refine Relation.ReflTransGen.head_induction_on
    (motive := fun at_ _ => at_.1.deleted ≠ [] → s'.deleted ≠ []) run id
      (fun step _ ih swept => ih ?_)
    swept
  cases step with
  | drift moves => exact Drift.deleted moves ▸ swept
  | serve served =>
      cases served with
      | deleted => exact List.cons_ne_nil _ _
      | _ => exact swept

theorem front_char {p q : String} (long : 16 < p.toList.length) :
    (p ++ q).toList[16]? = p.toList[16]? := by
  rw [String.toList_append, List.getElem?_append_left long]

/-- The two keys part at their seventeenth character. -/
theorem curProp_ne : r.curProp ≠ r.wmProp := by
  intro same
  have char : r.curProp.toList[16]? = r.wmProp.toList[16]? :=
    congrArg (fun k : String => k.toList[16]?) same
  have cur : r.curProp.toList[16]? = "apitap.watermark-cursor.".toList[16]? :=
    front_char (by decide)
  have wm : r.wmProp.toList[16]? = "apitap.watermark.".toList[16]? := front_char (by decide)
  exact absurd (cur.symm.trans (char.trans wm)) (by decide)

theorem prop_sets (t : TableMetadata) {w : String} (sets : c.sets = r.sets)
    (rides : r.mode ≠ .replace ∨ r.flipped = true) (wm : r.wm = some w) :
    (t.apply c).prop r.wmProp = some w ∧ (t.apply c).prop r.curProp = some (r.cursor.getD "") := by
  have props : (t.apply c).props = (r.wmProp, w) :: (r.curProp, r.cursor.getD "") ::
      t.props.filter fun p => p.1 ∉ c.removals ∧ p.1 ∉ c.sets.map (·.1) := by
    rw [TableMetadata.apply, sets, Run.sets, if_pos rides, wm]
    rfl
  rw [TableMetadata.prop, TableMetadata.prop, props]
  refine ⟨List.lookup_cons_self, ?_⟩
  rw [List.lookup_cons, beq_false_of_ne curProp_ne]
  exact List.lookup_cons_self

/-- An Iceberg commit lands once, and its sweep never touches a live snapshot. Whatever
the answers and whatever peers do in between: a table takes at most one of the run's
snapshots and counts each of its files once; the run reports done only if one landed;
files are deleted only if none landed, and none does later; an append or merge carries
every manifest of its parent; and the data and the watermark are applied together. -/
theorem commit_lands_once {md : TableMetadata} {s₀ : Catalog} {rows : Nat}
    {p : Client (Except String Unit)} (prepared : Prepared r md s₀)
    (run : (Catalog.env r).Reaches (s₀, finalize r md rows) (s, p)) :
    (s.landed.map (·.before.uuid)).Nodup ∧
    (∀ t, s.table = some t → ∀ x ∈ t.snapshots,
      (∀ y ∈ t.snapshots, x.id ∈ s.drawn → y.id ∈ s.drawn → x = y) ∧
      ∀ path ∈ r.paths, x.entries.count path ≤ 1) ∧
    (p = .pure (.ok ()) → rows ≠ 0 → s.landed ≠ []) ∧
    (s.deleted ≠ [] → ∀ s' p', (Catalog.env r).Reaches (s, p) (s', p') → s'.landed = []) ∧
    (r.mode = .append ∨ r.mode = .merge → ∀ c ∈ s.posted, ∀ t, s.table = some t → t.uuid = c.uuid →
      ∀ x ∈ t.snapshots, c.snapshot.parent = some x.id → x.manifests <+: c.snapshot.manifests) ∧
    ∀ l ∈ s.landed,
      (r.mode = .append ∨ r.mode = .merge → ∀ x, l.before.currentSnapshot = some x →
        x.manifests <+: l.commit.snapshot.manifests) ∧
      (∀ f ∈ r.files, l.commit.snapshot.entries.count f.path = 1) ∧
      (r.mode ≠ .replace ∨ r.flipped = true → ∀ w, r.wm = some w →
        (l.before.apply l.commit).prop r.wmProp = some w ∧
        (l.before.apply l.commit).prop r.curProp = some (r.cursor.getD "")) := by
  have meets : (Catalog.env r).Meets (Safe r) (Reported r rows) (finalize r md rows) s₀ :=
    meets_finalize prepared
  obtain ⟨⟨inv, -⟩, reported⟩ := meets.reaches run
  refine ⟨inv.apart, fun t there x mem => ⟨fun y mem' own own' => ?_, fun path own => ?_⟩,
    fun done some => (reported _ done s .refl).2 rfl some, fun swept s' p' further => ?_,
    fun keeps c posted t there uuid x mem parent => ?_, fun l mem => ?_⟩
  · obtain ⟨l, landed, uuid, rfl⟩ := (inv.table t there).own x mem own
    obtain ⟨l', landed', uuid', rfl⟩ := (inv.table t there).own y mem' own'
    rw [List.inj_on_of_nodup_map inv.apart landed landed' (uuid.trans uuid'.symm)]
  · exact (inv.table t there).once x mem path own
  · have safe := (meets.reaches (run.trans further)).1
    exact (safe.2 (deleted_kept further swept)).2
  · obtain ⟨-, base, past, built⟩ := inv.posted c posted
    have top : base.head?.map (·.id) = some x.id := built.main ▸ built.parent ▸ parent
    obtain ⟨y, head, same⟩ := Option.map_eq_some_iff.mp top
    have inside := (past.kept t there uuid).subset (List.mem_of_mem_head? head)
    obtain rfl := List.inj_on_of_nodup_map (inv.table t there).ids inside mem same
    exact built.carry keeps y head
  · obtain ⟨-, built, -, -, -⟩ := inv.landed l mem
    exact ⟨built.carry, built.data, fun rides w wm => prop_sets l.before built.sets rides wm⟩

end

/-- A run of one data file that appends to a table. -/
def oneFile : Run where
  table := "orders"
  runId := "r1"
  keyPrefix := "db/orders/"
  location := "s3://lake/db/orders"
  kind := .incremental
  mode := .append
  mergeKey := none
  sourceId := none
  cursor := some "id"
  wm := some "7"
  files := [⟨"s3://lake/db/orders/data/r1-00000.parquet", "db/orders/data/r1-00000.parquet", 3, 90,
    none⟩]
  distinct := by decide

def emptyTable : TableMetadata := ⟨1, 0, 0, [], []⟩

def Catalog.fresh : Catalog := ⟨some emptyTable, [], [], [], [], [], [], [1]⟩

theorem fresh_prepared : Prepared oneFile emptyTable .fresh :=
  ⟨rfl, List.nodup_nil, nofun, List.mem_cons_self, nofun, rfl, rfl, rfl, rfl, rfl⟩

/-- What a peer appended meanwhile. -/
def peerSnapshot : Snapshot :=
  ⟨2, none, 0, "s3://lake/db/orders/metadata/snap-2.avro",
    [⟨"s3://lake/db/orders/metadata/r0-m0.avro", 2, false,
      [⟨.data, "s3://lake/db/orders/data/r0-00000.parquet", 4, 120⟩]⟩]⟩

/-- A peer's commit goes first; the retry's answer is lost, and it lands. -/
theorem commit_lands :
    ∃ s l, (Catalog.env oneFile).Reaches (.fresh, finalize oneFile emptyTable 3)
        (s, .pure (.ok ())) ∧
      s.landed = [l] ∧ l.before.currentSnapshot = some peerSnapshot ∧
      peerSnapshot.manifests <+: l.commit.snapshot.manifests := by
  let grown : TableMetadata := { emptyTable with snapshots := [peerSnapshot] }
  have run : (Catalog.env oneFile).Reaches (.fresh, finalize oneFile emptyTable 3)
      (_, .pure (.ok ())) :=
    .head (.drift (@Catalog.Drift.peer oneFile .fresh emptyTable grown peerSnapshot []
      peerSnapshot.manifests rfl rfl rfl List.not_mem_nil rfl (List.Sublist.refl [])
      (by decide))) <|
    .head (.serve (.id (i := 5) (by decide))) <|
    .head (.serve .put) <|
    .head (.serve .put) <|
    .head (.serve (@Catalog.Serve.rejected _ _ 409 "" (.inl rfl))) <|
    .head (.serve .loaded) <|
    .head (.serve (.id (i := 6) (by decide))) <|
    .head (.serve .listed) <|
    .head (.serve .put) <|
    .head (.serve .put) <|
    .head (.serve (@Catalog.Serve.unclear _ _ 503 "" rfl)) <|
    .head (.drift (.land (t := grown) rfl List.mem_cons_self rfl)) <|
    .head (.serve .loaded) <|
    .head (.serve .released) .refl
  have lands := commit_lands_once fresh_prepared run
  exact ⟨_, _, run, rfl, rfl,
    (lands.2.2.2.2.2 _ List.mem_cons_self).1 (.inl rfl) peerSnapshot rfl⟩

end Apitap.Iceberg
