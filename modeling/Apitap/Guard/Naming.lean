import Mathlib.Data.List.Dedup
import Mathlib.Data.List.Sort
import Mathlib.Data.List.Lex

/-!
# What a name beside a table means

A run leaves its token in the name of everything it makes beside a destination table.
A scan reads the table, the kind of artifact and the token back off each name, and
decides which of them stand in its way.
-/

namespace Apitap.Guard

/-- A destination table, as its bare name and its lease key alike. -/
abbrev Table := String

/-- How a run's landing operation behaves towards a concurrent one. -/
inductive LandKind where
  /-- Swaps the whole table. Exclusive with everything, including itself. -/
  | swap
  /-- Adds rows against a watermark. Safe beside a different source. -/
  | incremental
  /-- A drain. Exclusive: it owns a replication slot and a watermark. -/
  | cdc
deriving DecidableEq

inductive Artifact where
  | staging
  | old
  | new
  | changelogTmp
  | cdcDelete
  | cdcStaging
  | cdcStaging1
  | cdcStaging2
  | cdcStaging3
  | current
  | lock
deriving DecidableEq

/-- What a run's token says: when it started, what it lands as, the hash of its
source, and a nonce. -/
structure Token where
  started : Nat
  kind : LandKind
  source : Nat
  nonce : Nat
deriving DecidableEq

/-- A run, and the token of the run it was spawned inside. -/
structure RunId where
  token : Token
  parent : Option Token
deriving DecidableEq

/-- A name beside a table; without a token it was written by an older version. -/
structure Name where
  table : Table
  artifact : Artifact
  token : Option Token
deriving DecidableEq

/-- What a name found next to a destination table means to this run. -/
inductive Found where
  | foreign
  | mine
  | parent
  | legacy
  | live (peer : Token)
deriving DecidableEq

def classify (name : Name) (bare : Table) (artifact : Artifact) (mine : RunId) : Found :=
  if name.table ≠ bare ∨ name.artifact ≠ artifact then .foreign
  else match name.token with
    | none => .legacy
    | some peer =>
        if mine.token = peer then .mine
        else if mine.parent = some peer then .parent
        else .live peer

/-- May `mine` not proceed while `peer` is running? -/
def peerBlocks (mine peer : Token) : Bool :=
  match mine.kind, peer.kind with
  | .swap, _ | _, .swap => true
  | .cdc, _ | _, .cdc => true
  | .incremental, .incremental => mine.source = peer.source

theorem peerBlocks_comm (a b : Token) : peerBlocks a b = peerBlocks b a := by
  unfold peerBlocks
  cases a.kind <;> cases b.kind <;> simp only
  exact decide_eq_decide.mpr eq_comm

/-- One reason this run may not proceed. -/
inductive Blocker where
  | legacy (name : Name)
  | live (name : Name) (peer : Token)
deriving DecidableEq

def Blocker.name : Blocker → Name
  | .legacy name => name
  | .live name _ => name

/-- Who blocks this run, and which of its own objects an earlier attempt left behind. -/
structure Scan where
  blockers : List Blocker
  mineLeftovers : List Name

/-- What one name is to a scan that asks for one kind. -/
def blocker (bare : Table) (run : RunId) (name : Name) (artifact : Artifact) : Option Blocker :=
  match classify name bare artifact run with
  | .legacy => some (.legacy name)
  | .live peer => if peerBlocks run.token peer then some (.live name peer) else none
  | _ => none

/-- The run's own objects; its lock is its announcement, and stays. -/
def leftover (bare : Table) (run : RunId) (name : Name) (artifact : Artifact) : Bool :=
  classify name bare artifact run = .mine ∧ artifact ≠ .lock

/-- Every blocker beside this destination, in listing order, and this run's own
leftovers. -/
def blockers (bare : Table) (run : RunId) (kinds : List Artifact) (listed : List Name) : Scan where
  blockers := listed.flatMap fun name => kinds.filterMap (blocker bare run name)
  mineLeftovers := listed.flatMap fun name => (kinds.filter (leftover bare run name)).map fun _ =>
    name

/-- What a run announces itself with. -/
def markers : LandKind → List Artifact
  | .cdc => [.lock, .staging]
  | _ => [.lock]

/-- The peer of a blocker whose owner can be asked whether it is alive: only what a
drain announces. -/
def collectable : Blocker → Option Token
  | .live name peer => if peer.kind = .cdc ∧ name.artifact ∈ markers .cdc then some peer else none
  | .legacy _ => none

/-- The order of the tokens' text. -/
def Token.key (t : Token) : List Nat :=
  [t.started, match t.kind with | .incremental => 0 | .cdc => 1 | .swap => 2, t.source, t.nonce]

/-- One decision for each token: its blockers, in listing order. -/
def byToken (bs : List Blocker) : List (Token × List Blocker) :=
  ((bs.filterMap collectable).dedup.mergeSort fun a b => decide (a.key ≤ b.key)).map fun tok =>
    (tok, bs.filter fun b => collectable b = some tok)

/-! ## What a scan finds -/

section

variable {bare : Table} {run : RunId} {kinds : List Artifact} {listed : List Name} {name : Name}
  {peer : Token}

theorem mem_blockers {b : Blocker} (mem : b ∈ (blockers bare run kinds listed).blockers) :
    ∃ name ∈ listed, ∃ artifact ∈ kinds, blocker bare run name artifact = some b := by
  obtain ⟨name, here, mem⟩ := List.mem_flatMap.mp mem
  obtain ⟨artifact, kind, is⟩ := List.mem_filterMap.mp mem
  exact ⟨name, here, artifact, kind, is⟩

theorem classify_live {artifact : Artifact} (is : classify name bare artifact run = .live peer) :
    name.table = bare ∧ name.token = some peer ∧ run.token ≠ peer := by
  unfold classify at is
  split at is
  · nomatch is
  · rename_i here
    obtain ⟨table, -⟩ := not_or.mp here
    split at is
    · nomatch is
    · rename_i token
      split at is
      · nomatch is
      · rename_i other
        split at is
        · nomatch is
        · obtain rfl := Found.live.inj is
          exact ⟨not_not.mp table, token, other⟩

theorem classify_mine {artifact : Artifact} (is : classify name bare artifact run = .mine) :
    name.artifact = artifact ∧ name.token = some run.token := by
  unfold classify at is
  split at is
  · nomatch is
  · rename_i here
    obtain ⟨-, kind⟩ := not_or.mp here
    split at is
    · nomatch is
    · rename_i token
      split at is
      · rename_i same
        exact ⟨not_not.mp kind, same ▸ token⟩
      · split at is <;> nomatch is

/-- A live blocker is a name of the table, with its peer's token. -/
theorem live_of_blockers {b : Blocker} {tok : Token}
    (mem : b ∈ (blockers bare run kinds listed).blockers) (asks : collectable b = some tok) :
    b.name.table = bare ∧ b.name.token = some tok ∧ run.token ≠ tok ∧ tok.kind = .cdc := by
  obtain ⟨name, -, artifact, -, is⟩ := mem_blockers mem
  unfold blocker at is
  split at is
  · obtain rfl := Option.some.inj is
    nomatch asks
  · split at is
    · obtain rfl := Option.some.inj is
      obtain ⟨table, token, other⟩ := classify_live (by assumption)
      rw [collectable] at asks
      split at asks
      · rename_i drain
        obtain rfl := Option.some.inj asks
        exact ⟨table, token, other, drain.1⟩
      · nomatch asks
    · nomatch is
  · nomatch is

/-- A leftover is the run's own, and not its lock. -/
theorem own_of_leftovers (mem : name ∈ (blockers bare run kinds listed).mineLeftovers) :
    name.token = some run.token ∧ name.artifact ≠ .lock := by
  obtain ⟨n, -, mem⟩ := List.mem_flatMap.mp mem
  obtain ⟨artifact, found, rfl⟩ := List.mem_map.mp mem
  have own : leftover bare run n artifact = true := (List.mem_filter.mp found).2
  obtain ⟨mine, kind⟩ := of_decide_eq_true own
  obtain ⟨same, token⟩ := classify_mine mine
  exact ⟨token, same ▸ kind⟩

/-- A peer's name of a kind the scan asks for blocks it, unless the two are related or
may share the table. -/
theorem blocks_of_listed (mem : name ∈ listed) (here : name.table = bare)
    (kind : name.artifact ∈ kinds)
    (token : name.token = some peer) (other : run.token ≠ peer) (unrelated : run.parent ≠ some peer)
    (conflict : peerBlocks run.token peer = true) :
    .live name peer ∈ (blockers bare run kinds listed).blockers := by
  refine List.mem_flatMap.mpr ⟨name, mem, List.mem_filterMap.mpr ⟨name.artifact, kind, ?_⟩⟩
  rw [blocker, classify, if_neg (by simp [here]), token]
  dsimp only
  rw [if_neg other, if_neg unrelated]
  dsimp only
  rw [if_pos conflict]

/-- Names of the run itself, and of runs that may share the table, do not block it. -/
theorem blockers_nil (shares : ∀ name ∈ listed, ∃ peer, name.token = some peer ∧
    (run.token = peer ∨ peerBlocks run.token peer = false)) :
    (blockers bare run kinds listed).blockers = [] := by
  refine List.eq_nil_iff_forall_not_mem.mpr fun b mem => ?_
  obtain ⟨name, here, artifact, -, is⟩ := mem_blockers mem
  obtain ⟨peer, token, shares⟩ := shares name here
  unfold blocker at is
  split at is
  · rename_i found
    unfold classify at found
    rw [token] at found
    dsimp only at found
    split at found
    · nomatch found
    · split at found
      · nomatch found
      · split at found <;> nomatch found
  · rename_i other found
    obtain ⟨-, same, ne⟩ := classify_live found
    obtain rfl := Option.some.inj (token.symm.trans same)
    rw [shares.resolve_left ne] at is
    nomatch is
  · nomatch is

theorem mem_byToken {bs : List Blocker} {tok : Token} {group : List Blocker}
    (mem : (tok, group) ∈ byToken bs) : ∀ b ∈ group, b ∈ bs ∧ collectable b = some tok := by
  obtain ⟨_, -, same⟩ := List.mem_map.mp mem
  obtain ⟨rfl, rfl⟩ := Prod.mk.inj same
  exact fun b inGroup => (List.mem_filter.mp inGroup).imp id of_decide_eq_true

theorem asked_of_byToken {bs : List Blocker} {tok : Token} {group : List Blocker}
    (mem : (tok, group) ∈ byToken bs) : ∃ b ∈ bs, collectable b = some tok := by
  obtain ⟨_, among, same⟩ := List.mem_map.mp mem
  obtain ⟨rfl, -⟩ := Prod.mk.inj same
  exact List.mem_filterMap.mp (List.mem_dedup.mp (List.mem_mergeSort.mp among))

@[simp] theorem byToken_nil : byToken [] = [] := by simp [byToken]

theorem byToken_covers {bs : List Blocker} {b : Blocker} {tok : Token} (mem : b ∈ bs)
    (asks : collectable b = some tok) : ∃ group, (tok, group) ∈ byToken bs := by
  refine ⟨_, List.mem_map.mpr ⟨tok, ?_, rfl⟩⟩
  exact List.mem_mergeSort.mpr (List.mem_dedup.mpr (List.mem_filterMap.mpr ⟨b, mem, asks⟩))

end

end Apitap.Guard
