import Apitap.Foundation.Effect

/-!
# An Iceberg commit

A commit posts a snapshot with the requirements it was built on: the table's uuid, its
schema and partition spec, and main's snapshot. The catalog checks them and applies the
updates as one step. An answer may leave it open whether that happened; the snapshot id
is the client's own, so the table's history says.
-/

namespace Apitap.Iceberg

inductive Mode where
  | replace
  | append
  | merge
  | logBased
deriving DecidableEq

def Mode.name : Mode → String
  | .replace => "Replace"
  | .append => "Append"
  | .merge => "Merge"
  | .logBased => "LogBased"

/-- How a run's landing behaves towards a concurrent one. -/
inductive LandKind where
  | swap
  | incremental
  | cdc
deriving DecidableEq

/-- A replace whose run is incremental: the first load of a table. -/
def flippedBootstrap (kind : LandKind) (mode : Mode) : Bool :=
  mode = .replace ∧ kind = .incremental

/-! ## What a run writes -/

structure DeleteDone where
  path : String
  key : String
  rows : Nat
  bytes : Nat

/-- One finished data file, and in merge mode its key companion. -/
structure FileDone where
  path : String
  key : String
  rows : Nat
  bytes : Nat
  delete : Option DeleteDone

def FileDone.paths (f : FileDone) : List String := f.path :: (f.delete.map (·.path)).toList

inductive Content where
  | data
  /-- Rows equal in this field are deleted. -/
  | equalityDeletes (fid : Int)
deriving DecidableEq

structure DataFile where
  content : Content
  path : String
  records : Nat
  bytes : Nat
deriving DecidableEq

structure ManifestFile where
  path : String
  snapshotId : Int
  deletes : Bool
  files : List DataFile
deriving DecidableEq

/-- A snapshot with the entries of its manifest list. -/
structure Snapshot where
  id : Int
  parent : Option Int
  schemaId : Int
  manifestList : String
  manifests : List ManifestFile
deriving DecidableEq

/-- The paths a snapshot counts, one entry each. -/
def Snapshot.entries (x : Snapshot) : List String :=
  x.manifests.flatMap fun m => m.files.map (·.path)

/-- Table metadata; main's history is newest first. -/
structure TableMetadata where
  uuid : Nat
  schemaId : Int
  specId : Int
  snapshots : List Snapshot
  props : List (String × String)

def TableMetadata.currentSnapshot (md : TableMetadata) : Option Snapshot := md.snapshots.head?

/-- Whether a snapshot id is in the table's history. -/
def snapshotLanded (md : TableMetadata) (snapshotId : Int) : Bool :=
  md.snapshots.any fun x => x.id = snapshotId

/-- What a commit requires of the table, and what it changes. -/
structure Commit where
  uuid : Nat
  schemaId : Int
  specId : Int
  /-- Main's snapshot; `none` when the table has none. -/
  main : Option Int
  snapshot : Snapshot
  removals : List String
  sets : List (String × String)

/-- The requirements hold. -/
def TableMetadata.admits (md : TableMetadata) (c : Commit) : Bool :=
  md.uuid = c.uuid ∧ md.schemaId = c.schemaId ∧ md.specId = c.specId ∧
    md.currentSnapshot.map (·.id) = c.main

/-- The updates, applied in one step. -/
def TableMetadata.apply (md : TableMetadata) (c : Commit) : TableMetadata :=
  { md with
    snapshots := c.snapshot :: md.snapshots
    props := c.sets ++ md.props.filter fun p =>
      p.1 ∉ c.removals ∧ p.1 ∉ c.sets.map (·.1) }

def TableMetadata.prop (md : TableMetadata) (key : String) : Option String := md.props.lookup key

/-! ## The client -/

inductive Call where
  | loadTable
  /-- A random snapshot id that the given metadata does not have. -/
  | freshSnapshotId (known : TableMetadata)
  /-- GET a snapshot's manifest list. -/
  | getList (x : Snapshot)
  | putObject (key : String)
  /-- POST a commit. -/
  | commit (c : Commit)
  | delete (key : String)
  | release

inductive Answer where
  | table (t : Option TableMetadata)
  | id (i : Int)
  | manifests (ms : List ManifestFile)
  | status (code : Nat) (text : String)
  | done
  | error (message : String)

abbrev Client (α : Type) := Prog Call Answer α

/-- One run, as its commit finds it. -/
structure Run where
  table : String
  runId : String
  keyPrefix : String
  location : String
  kind : LandKind
  mode : Mode
  /-- The merge key's field id. -/
  mergeKey : Option Int
  sourceId : Option String
  /-- The cursor column's name. -/
  cursor : Option String
  /-- The freshest cursor value this run shipped. -/
  wm : Option String
  files : List FileDone
  /-- Every object carries the run's id and its own number. -/
  distinct : (files.flatMap FileDone.paths).Nodup

namespace Run

def flipped (r : Run) : Bool := flippedBootstrap r.kind r.mode

def wmProp (r : Run) : String := "apitap.watermark." ++ r.sourceId.getD "default"

def curProp (r : Run) : String := "apitap.watermark-cursor." ++ r.sourceId.getD "default"

/-- Every path the run wrote. -/
def paths (r : Run) : List String := r.files.flatMap FileDone.paths

def dataFiles (r : Run) : List DataFile :=
  r.files.map fun f => ⟨.data, f.path, f.rows, f.bytes⟩

/-- A data file's key companion, with as many keys as it has rows. -/
def deleteDataFile (fid : Int) (f : FileDone) : Except String DataFile :=
  let path := f.path
  match f.delete with
  | none => .error s!"iceberg merge: data file {path} has no delete file — refusing to commit"
  | some d =>
      if d.rows ≠ f.rows then
        let keys := d.rows
        let rows := f.rows
        .error s!"iceberg merge: delete file for {path} has {keys} keys for {rows} rows"
      else .ok ⟨.equalityDeletes fid, d.path, d.rows, d.bytes⟩

/-- One equality-delete file for each data file, in merge mode only. -/
def deleteDataFiles (r : Run) : Except String (List DataFile) :=
  if r.mode ≠ .merge then
    if r.files.any (·.delete.isSome) then
      let mode := r.mode.name
      .error s!"iceberg: {mode} run has delete files — refusing to commit"
    else .ok []
  else match r.mergeKey with
    | none => .error "iceberg merge: no merge-key field id resolved in prepare"
    | some fid => r.files.mapM (deleteDataFile fid)

/-- The object key of a manifest, and of a manifest list. -/
def metadataKey (r : Run) (name : String) : String := r.keyPrefix ++ "metadata/" ++ name

def metadataPath (r : Run) (name : String) : String := r.location ++ "/metadata/" ++ name

def manifestName (r : Run) (attempt n : Nat) : String :=
  let run := r.runId
  s!"{run}-a{attempt}-m{n}.avro"

def listName (r : Run) (snapshotId : Int) (attempt : Nat) : String :=
  let run := r.runId
  s!"snap-{snapshotId}-{attempt}-{run}.avro"

/-- The manifests of the run's own files. -/
def ownManifests (r : Run) (deletes : List DataFile) (snapshotId : Int) (attempt : Nat) :
    List ManifestFile :=
  ⟨r.metadataPath (r.manifestName attempt 0), snapshotId, false, r.dataFiles⟩ ::
    if deletes = [] then []
    else [⟨r.metadataPath (r.manifestName attempt 1), snapshotId, true, deletes⟩]

/-- A replace clears every source's watermark, but not the keys a first load sets. -/
def removals (r : Run) (md : TableMetadata) : List String :=
  if r.mode = .replace then
    (md.props.map (·.1)).filter fun k =>
      ("apitap.watermark.".isPrefixOf k ∨ "apitap.watermark-cursor.".isPrefixOf k) ∧
        ¬ (r.flipped ∧ (k = r.wmProp ∨ k = r.curProp))
  else []

/-- The watermark rides the commit, except a replace's. -/
def sets (r : Run) : List (String × String) :=
  if r.mode ≠ .replace ∨ r.flipped then
    match r.wm with
    | some wm => [(r.wmProp, wm), (r.curProp, r.cursor.getD "")]
    | none => []
  else []

/-- The snapshot, its updates and its requirements. -/
def commitOf (r : Run) (md : TableMetadata) (snapshotId : Int) (attempt : Nat)
    (manifests : List ManifestFile) (schemaId specId : Int) : Commit :=
  let parent := md.currentSnapshot.map (·.id)
  { uuid := md.uuid
    schemaId := schemaId
    specId := specId
    main := parent
    snapshot := ⟨snapshotId, parent, md.schemaId, r.metadataPath (r.listName snapshotId attempt),
      manifests⟩
    removals := r.removals md
    sets := r.sets }

end Run

/-! ### One attempt -/

inductive CommitClass where
  | done
  | conflict
  | unknown
  | failed
deriving DecidableEq

def commitStatusClass (status : Nat) : CommitClass :=
  if 200 ≤ status ∧ status < 300 then .done
  else if status = 409 ∨ status = 412 then .conflict
  else if (500 ≤ status ∧ status < 600) ∨ status = 408 ∨ status = 429 then .unknown
  else .failed

inductive CommitTry where
  | done
  | conflict
  /-- The request may or may not have landed. -/
  | unknown (e : String)

/-- What a status says of the attempt. -/
def tryOf (code : Nat) (text : String) : Except String CommitTry :=
  let e := s!"iceberg catalog commit: {code} {text}"
  match commitStatusClass code with
  | .done => .ok .done
  | .conflict => .ok .conflict
  | .unknown => .ok (.unknown e)
  | .failed => .error e

/-- One optimistic-concurrency commit attempt. -/
def commitTable (c : Commit) : Client (Except String CommitTry) := do
  match ← Prog.ask (.commit c) with
  | .status code text => pure (tryOf code text)
  | .error m => pure (.ok (.unknown s!"iceberg commit: {m}"))
  | _ => pure (.ok (.unknown "iceberg commit"))

/-- The table's metadata; `none` when it does not exist. -/
def loadTable : Client (Except String (Option TableMetadata)) := do
  match ← Prog.ask .loadTable with
  | .table t => pure (.ok t)
  | .error m => pure (.error m)
  | _ => pure (.error "iceberg catalog load table: bad JSON")

/-- An append or merge starts from every entry of its parent's manifest list. -/
def inherited (r : Run) (md : TableMetadata) : Client (Except String (List ManifestFile)) :=
  if r.mode = .append ∨ r.mode = .merge then
    match md.currentSnapshot with
    | none => pure (.ok [])
    | some snap => do
        match ← Prog.ask (.getList snap) with
        | .manifests ms => pure (.ok ms)
        | .error m => pure (.error m)
        | _ => pure (.error "iceberg: manifest list didn't parse")
  else pure (.ok [])

/-- Write objects in order; the first failure ends it. -/
def putAll : List String → Client (Except String Unit)
  | [] => pure (.ok ())
  | key :: keys => do
      match ← Prog.ask (.putObject key) with
      | .error m => pure (.error m)
      | _ => putAll keys

/-- The objects one attempt writes: its manifests and its manifest list. -/
def attemptKeys (r : Run) (deletes : List DataFile) (snapshotId : Int) (attempt : Nat) :
    List String :=
  r.metadataKey (r.manifestName attempt 0) ::
    (if deletes = [] then [] else [r.metadataKey (r.manifestName attempt 1)]) ++
      [r.metadataKey (r.listName snapshotId attempt)]

/-- Build one attempt's snapshot on the metadata it was given. -/
def build (r : Run) (deletes : List DataFile) (schemaId specId : Int) (md : TableMetadata)
    (snapshotId : Int) (attempt : Nat) : Client (Except String Commit) := do
  match ← inherited r md with
  | .error e => pure (.error e)
  | .ok parents =>
      match ← putAll (attemptKeys r deletes snapshotId attempt) with
      | .error e => pure (.error e)
      | .ok () =>
          pure (.ok (r.commitOf md snapshotId attempt
            (parents ++ r.ownManifests deletes snapshotId attempt) schemaId specId))

/-! ### The commit -/

/-- How a whole commit ended, when not by an error. -/
inductive CommitEnd where
  | done
  /-- A snapshot may have landed: its files must be kept. -/
  | unknown (e : String)

/-- A commit's result, and whether an attempt was answered ambiguously. -/
structure Ended where
  result : Except String CommitEnd
  ambiguous : Bool

/-- A plain failure after an ambiguous attempt is unknown too. -/
def failure (ambiguous : Bool) (e : String) : Ended :=
  ⟨if ambiguous then .ok (.unknown e) else .error e, ambiguous⟩

def evolvedMsg (schema₀ schema spec₀ spec : Int) : String :=
  "iceberg: the table's schema or partition spec changed during this load " ++
    s!"(schema {schema₀} -> {schema}, spec {spec₀} -> {spec}); its files were written " ++
    "for the old one, so nothing is committed. Re-run against the new schema."

def lostBootstrapMsg (table : String) : String :=
  s!"another run published {table} while this first run was loading it — the table now has " ++
    "data and this run would have overwritten it. Re-run: the table's state makes this an " ++
    "incremental load."

def conflictedMsg (ambiguous : Bool) : String :=
  if ambiguous then
    "iceberg: commit conflicted 3 times (after an ambiguous attempt) — another writer is " ++
      "racing this table; a re-run settles it"
  else
    "iceberg: commit conflicted 3 times — another writer is racing this table; re-run the transfer"

/-- The optimistic-concurrency loop, with so many attempts left. `md` is the table as
last read, `tried` every attempt's snapshot id. -/
def commitLoop (r : Run) (deletes : List DataFile) (schemaId specId : Int) :
    Nat → Nat → Bool → List Int → TableMetadata → Client Ended
  | 0, _, ambiguous, _, _ => pure (failure ambiguous (conflictedMsg ambiguous))
  | left + 1, attempt, ambiguous, tried, md => do
      if md.schemaId ≠ schemaId ∨ md.specId ≠ specId then
        pure (failure ambiguous (evolvedMsg schemaId md.schemaId specId md.specId))
      else
        match ← Prog.ask (.freshSnapshotId md) with
        | .id snapshotId =>
            let tried := tried ++ [snapshotId]
            if r.flipped ∧ (md.currentSnapshot.any fun p => p.id ∉ tried) then
              pure ⟨.error (lostBootstrapMsg r.table), ambiguous⟩
            else
              match ← build r deletes schemaId specId md snapshotId attempt with
              | .error e => pure ⟨.error e, ambiguous⟩
              | .ok c =>
                  match ← commitTable c with
                  | .error e => pure (failure ambiguous e)
                  | .ok .done => pure ⟨.ok .done, ambiguous⟩
                  | .ok (.unknown e) =>
                      match ← loadTable with
                      | .error e => pure ⟨.ok (.unknown e), ambiguous⟩
                      | .ok none =>
                          pure ⟨.ok (.unknown "iceberg: table vanished after an ambiguous commit"),
                            ambiguous⟩
                      | .ok (some fresh) =>
                          if tried.any (snapshotLanded fresh) then pure ⟨.ok .done, ambiguous⟩
                          else if attempt = 2 then pure ⟨.ok (.unknown e), true⟩
                          else
                            commitLoop r deletes schemaId specId left (attempt + 1) true tried fresh
                  | .ok .conflict =>
                      match ← loadTable with
                      | .error e => pure ⟨.ok (.unknown e), ambiguous⟩
                      | .ok none =>
                          pure ⟨.ok (.unknown "iceberg: table vanished mid-commit"), ambiguous⟩
                      | .ok (some md) =>
                          if tried.any (snapshotLanded md) then pure ⟨.ok .done, ambiguous⟩
                          else
                            commitLoop r deletes schemaId specId left (attempt + 1)
                              ambiguous tried md
        | _ => pure ⟨.error "iceberg: no snapshot id", ambiguous⟩

def commitInner (r : Run) (md : TableMetadata) : Client Ended :=
  match r.deleteDataFiles with
  | .error e => pure ⟨.error e, false⟩
  | .ok deletes => commitLoop r deletes md.schemaId md.specId 3 0 false [] md

/-- Once an attempt was answered ambiguously, any later failure is unknown. -/
def commit (r : Run) (md : TableMetadata) : Client (Except String CommitEnd) := do
  match ← commitInner r md with
  | ⟨.error e, true⟩ => pure (.ok (.unknown e))
  | ⟨other, _⟩ => pure other

/-- Delete objects, whatever the answers. -/
def deleteAll : List String → Client Unit
  | [] => pure ()
  | key :: keys => do
      let _ ← Prog.ask (.delete key)
      deleteAll keys

/-- Delete every object the run completed: the data files and their key companions. -/
def sweep (files : List FileDone) : Client Unit :=
  deleteAll (files.flatMap fun f => f.key :: (f.delete.map (·.key)).toList)

/-- Commit what the run loaded; only an error sweeps its files. -/
def finalize (r : Run) (md : TableMetadata) (rows : Nat) : Client (Except String Unit) := do
  if rows = 0 then
    sweep r.files
    let _ ← Prog.ask .release
    pure (.ok ())
  else
    match ← commit r md with
    | .ok .done =>
        let _ ← Prog.ask .release
        pure (.ok ())
    | .ok (.unknown e) =>
        let _ ← Prog.ask .release
        pure (.error e)
    | .error e =>
        sweep r.files
        let _ ← Prog.ask .release
        pure (.error e)

/-! ## The catalog -/

/-- A commit of this run that was applied, and the table it was applied to. -/
structure Landing where
  commit : Commit
  before : TableMetadata

structure Catalog where
  table : Option TableMetadata
  /-- Commits whose answer was lost; they may still be applied. -/
  pending : List Commit
  /-- Every commit this run posted, and those that were applied. -/
  posted : List Commit
  landed : List Landing
  /-- Keys this run asked to delete. -/
  deleted : List String
  /-- Snapshot ids chosen by anyone, and those chosen by this run. -/
  used : List Int
  drawn : List Int
  /-- The tables that ever had the name. -/
  uuids : List Nat

namespace Catalog

/-- The requirements hold, and the updates are applied. -/
def land (s : Catalog) (c : Commit) (t : TableMetadata) : Catalog :=
  { s with table := some (t.apply c), landed := ⟨c, t⟩ :: s.landed }

def post (s : Catalog) (c : Commit) : Catalog := { s with posted := c :: s.posted }

/-- What happens to the table on its own: a peer commits a snapshot, keeping what it
likes of its parent's manifests and adding its own, or changes the table otherwise, or
drops it, or makes a new one; and a commit that was under way lands. -/
inductive Drift (r : Run) : Catalog → Catalog → Prop
  | peer {s : Catalog} {t t' : TableMetadata} {x : Snapshot} {kept added : List ManifestFile}
      (there : s.table = some t) (same : t'.uuid = t.uuid) (grown : t'.snapshots = x :: t.snapshots)
      (fresh : x.id ∉ s.used) (manifests : x.manifests = kept ++ added)
      (old : kept.Sublist (t.currentSnapshot.map (·.manifests) |>.getD []))
      (foreign : ∀ m ∈ added, ∀ f ∈ m.files, f.path ∉ r.paths) :
      Drift r s { s with table := some t', used := x.id :: s.used }
  | alter {s : Catalog} {t t' : TableMetadata} (there : s.table = some t) (same : t'.uuid = t.uuid)
      (kept : t'.snapshots = t.snapshots) : Drift r s { s with table := some t' }
  | drop {s : Catalog} : Drift r s { s with table := none }
  | create {s : Catalog} {t : TableMetadata} (absent : s.table = none) (fresh : t.uuid ∉ s.uuids)
      (empty : t.snapshots = []) :
      Drift r s { s with table := some t, uuids := t.uuid :: s.uuids }
  | land {s : Catalog} {t : TableMetadata} {c : Commit} (there : s.table = some t)
      (flying : c ∈ s.pending) (admitted : t.admits c = true) : Drift r s (s.land c t)

/-- How the catalog and the store may answer a call. -/
inductive Serve : Catalog → Call → Answer → Catalog → Prop
  | loaded {s : Catalog} : Serve s .loadTable (.table s.table) s
  | id {s : Catalog} {known : TableMetadata} {i : Int} (fresh : i ∉ s.used) :
      Serve s (.freshSnapshotId known) (.id i) { s with used := i :: s.used, drawn := i :: s.drawn }
  | listed {s : Catalog} {x : Snapshot} : Serve s (.getList x) (.manifests x.manifests) s
  | put {s : Catalog} {key : String} : Serve s (.putObject key) .done s
  /-- A lost answer, or an error, for anything but a commit. -/
  | failed {s : Catalog} {c : Call} {m : String} (asked : ∀ k, c ≠ .commit k)
      (kept : ∀ key, c ≠ .delete key) : Serve s c (.error m) s
  /-- The requirements held, and the answer says so. -/
  | accepted {s : Catalog} {t : TableMetadata} {c : Commit} {code : Nat} {text : String}
      (there : s.table = some t) (admitted : t.admits c = true)
      (said : commitStatusClass code = .done) :
      Serve s (.commit c) (.status code text) ((s.post c).land c t)
  /-- A conflict, or a definite rejection: nothing was applied, nor will be. -/
  | rejected {s : Catalog} {c : Commit} {code : Nat} {text : String}
      (said : commitStatusClass code = .conflict ∨ commitStatusClass code = .failed) :
      Serve s (.commit c) (.status code text) (s.post c)
  /-- The answer leaves it open; the commit may be applied from now on. -/
  | unclear {s : Catalog} {c : Commit} {code : Nat} {text : String}
      (said : commitStatusClass code = .unknown) :
      Serve s (.commit c) (.status code text) { s.post c with pending := c :: s.pending }
  | unheard {s : Catalog} {c : Commit} {m : String} :
      Serve s (.commit c) (.error m) { s.post c with pending := c :: s.pending }
  /-- A delete may take effect whatever its answer. -/
  | deleted {s : Catalog} {key : String} {ans : Answer} :
      Serve s (.delete key) ans { s with deleted := key :: s.deleted }
  | released {s : Catalog} : Serve s .release .done s

/-- The catalog as a run sees it. -/
def env (r : Run) : Env Catalog Call Answer := ⟨Drift r, Serve⟩

end Catalog

end Apitap.Iceberg
