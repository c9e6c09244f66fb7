import Apitap.Logbased.Drain

/-!
# The MySQL source

A binlog coordinate is a file and a position in it, packed into the one number every
watermark is. A committed transaction's row changes land in their tables' bodies, the
same bodies the Postgres lane fills; the images are whole rows, old ones included, and
an update never says so.
-/

namespace Apitap

open Foundation (bind_eq_ok)

namespace Mysource

/-- An unsigned 64-bit number as the standard parser reads it. -/
def parseU64 : Bytes → Option Nat
  | 43 :: digits => (parseDigits digits).bind fun n => if n < 2 ^ 64 then some n else none
  | digits => (parseDigits digits).bind fun n => if n < 2 ^ 64 then some n else none

/-- What follows the last dot; the whole name when it has none. -/
def lastPart (file : Bytes) : Bytes := (file.reverse.takeWhile (· ≠ 46)).reverse

/-- Pack a binlog coordinate into the pipeline's watermark. -/
def packPos (file : Bytes) (pos : Nat) : Nat :=
  ((parseU64 (lastPart file)).getD 0 * 2 ^ 32) % 2 ^ 64 + pos

/-- The file ordinal and position a packed watermark refers to. -/
def unpack (mark : Nat) : Nat × Nat := (mark / 2 ^ 32, mark % 2 ^ 32)

example : packPos [98, 46, 48, 48, 55] 4 = 7 * 2 ^ 32 + 4 := by decide

/-- A row change of a transaction. -/
inductive TxOp where
  | insert (row : Tuple)
  | update (old : Option Tuple) (row : Tuple)
  | delete (old : Tuple)
  | truncate
deriving DecidableEq, Repr

/-- The change as a body takes it. -/
def TxOp.stream : TxOp → StreamOp
  | .insert row => .insert row
  | .update old row => .update old row false
  | .delete old => .delete old
  | .truncate => .truncate

/-- The bodies of a window by table. -/
abbrev Bodies (β : Type) := AList fun _ : String => β

section drainTx

variable {β W : Type} [WindowBody W] [DrainBody β W]

/-- A table's body, built on the table's first change. -/
def bodyOf (layouts : String → Option Layout) (bodies : Bodies β) (table : String) :
    Except Error β :=
  match bodies.lookup table with
  | some b => .ok b
  | none => (layoutOf layouts table).map DrainBody.new

/-- Land one change in its table's body. -/
def landOp (layouts : String → Option Layout) (pos : Nat) (bodies : Bodies β)
    (op : String × TxOp) : Except Error (Bodies β) := do
  let b ← bodyOf layouts bodies op.1
  let b ← DrainBody.land b pos op.2.stream
  .ok (bodies.insert op.1 b)

/-- Land one transaction's buffered changes. -/
def drainTx (layouts : String → Option Layout) (pos : Nat) (txBuf : List (String × TxOp))
    (bodies : Bodies β) : Except Error (Bodies β) :=
  txBuf.foldlM (landOp layouts pos) bodies

/-- One table's window of those bodies; none when it had no traffic. -/
def sealTable (bodies : Bodies β) (table : String) : Except Error (Option (TableWindow W)) :=
  match bodies.lookup table with
  | some b => (DrainBody.sealBody b table).map some
  | none => .ok none

/-! ### One table's share -/

/-- What one committed transaction changed in a table, with its commit position. -/
abbrev TableTx := Nat × List TxOp

/-- The changes in order, as the table's body lands them. -/
def landings (txs : List TableTx) : List (Nat × StreamOp) :=
  txs.flatMap fun tx => tx.2.map fun op => (tx.1, op.stream)

/-- The changes in order, as the source made them. -/
def changes (txs : List TableTx) : List StreamOp := (landings txs).map Prod.snd

theorem landings_cons (tx : TableTx) (txs : List TableTx) :
    landings (tx :: txs) = (tx.2.map fun op => (tx.1, op.stream)) ++ landings txs := rfl

theorem changes_append (txs txs' : List TableTx) :
    changes (txs ++ txs') = changes txs ++ changes txs' := by
  simp only [changes, landings, List.flatMap_append, List.map_append]

/-- Drain a table's transactions into the window's bodies. -/
def drainTxs (layouts : String → Option Layout) (table : String) (txs : List TableTx)
    (bodies : Bodies β) : Except Error (Bodies β) :=
  txs.foldlM (fun bodies tx => drainTx layouts tx.1 (tx.2.map (table, ·)) bodies) bodies

variable {layouts : String → Option Layout} {table : String} {l : Layout}
  {bodies : Bodies β} {b : β}

theorem bodyOf_eq (layout : layouts table = some l) :
    bodyOf layouts bodies table = .ok ((bodies.lookup table).getD (DrainBody.new l)) := by
  unfold bodyOf
  cases bodies.lookup table with
  | some b => rfl
  | none =>
      dsimp only
      rw [layoutOf, layout]
      rfl

/-- A table's body is a new one its changes were landed in, if it had any. -/
theorem drainTx_spec (layout : layouts table = some l) {pos : Nat} {ops : List TxOp}
    (landed : DrainBody.landAll ((bodies.lookup table).getD (DrainBody.new l))
      (ops.map fun op => (pos, op.stream)) = .ok b) :
    ∃ bodies', drainTx layouts pos (ops.map (table, ·)) bodies = .ok bodies' ∧
      (bodies'.lookup table).getD (DrainBody.new l) = b ∧
      (bodies'.lookup table = none → bodies.lookup table = none ∧ ops = []) := by
  induction ops generalizing bodies with
  | nil => exact ⟨bodies, rfl, Except.ok.inj landed, fun none => ⟨none, rfl⟩⟩
  | cons op ops ih =>
      obtain ⟨b₁, first, rest⟩ := bind_eq_ok.mp landed
      have step : landOp layouts pos bodies (table, op) = .ok (bodies.insert table b₁) := by
        simp only [landOp, bodyOf_eq layout, first, bind, Except.bind]
      have rest : DrainBody.landAll
          (((bodies.insert table b₁).lookup table).getD (DrainBody.new l))
          (ops.map fun op => (pos, op.stream)) = .ok b := by
        rw [AList.lookup_insert]
        exact rest
      obtain ⟨bodies', drained, is, kept⟩ := ih rest
      refine ⟨bodies', ?_, is, fun none => ?_⟩
      · rw [drainTx, List.map_cons, List.foldlM_cons, step]
        exact drained
      · obtain ⟨impossible, -⟩ := kept none
        rw [AList.lookup_insert] at impossible
        nomatch impossible

theorem drainTxs_spec (layout : layouts table = some l) {txs : List TableTx}
    (landed : DrainBody.landAll ((bodies.lookup table).getD (DrainBody.new l)) (landings txs) =
      .ok b) :
    ∃ bodies', drainTxs layouts table txs bodies = .ok bodies' ∧
      (bodies'.lookup table).getD (DrainBody.new l) = b ∧
      (bodies'.lookup table = none → bodies.lookup table = none ∧ landings txs = []) := by
  induction txs generalizing bodies with
  | nil => exact ⟨bodies, rfl, Except.ok.inj landed, fun none => ⟨none, rfl⟩⟩
  | cons tx txs ih =>
      rw [landings_cons, DrainBody.landAll_append] at landed
      obtain ⟨b₁, first, rest⟩ := bind_eq_ok.mp landed
      obtain ⟨bodies₁, drained, is, kept⟩ := drainTx_spec layout first
      obtain ⟨bodies', drained', is', kept'⟩ := ih (is ▸ rest)
      refine ⟨bodies', ?_, is', fun none => ?_⟩
      · rw [drainTxs, List.foldlM_cons, drained]
        exact drained'
      · obtain ⟨none, empty⟩ := kept' none
        obtain ⟨none, nothing⟩ := kept none
        refine ⟨none, ?_⟩
        rw [landings_cons, nothing]
        exact empty

end drainTx

end Mysource

end Apitap
