import Apitap.Foundation.FirstBest
import Apitap.Wire.Pgoutput

/-!
# Pricing and fitting pipes

One price function for every lane: the reserve the process keeps, the pipeline's chunk
term per pipe, and what the sink's loader holds on top. The sizes are the caller's, and
the price is a 64-bit product of them.
-/

namespace Apitap

open Foundation (firstBest)

namespace Pipeline

/-- What one pipe of a sink's loader holds beyond the pipeline's chunk term. -/
structure PipeResidency where
  fixed : UInt64
  perRowGroup : UInt64
  chunks : UInt64
deriving DecidableEq, Repr

def PipeResidency.streaming : PipeResidency := ⟨0, 0, 0⟩

/-- A parquet row group's size. -/
inductive RowGroup where
  | mib24
  | mib8
  | mib4
deriving DecidableEq, Repr

namespace RowGroup

def ladder : List RowGroup := [.mib24, .mib8, .mib4]

def bytes : RowGroup → UInt64
  | .mib24 => 24 * 1024 * 1024
  | .mib8 => 8 * 1024 * 1024
  | .mib4 => 4 * 1024 * 1024

end RowGroup

def reserve : UInt64 := 40 * 1024 * 1024

def pipeChunks : UInt64 := 10

def defaultChunk : UInt64 := 4 * 1024 * 1024

def thinChunk : UInt64 := 2 * 1024 * 1024

structure PipeCost where
  reserve : UInt64
  pipeChunks : UInt64
  residency : PipeResidency
deriving DecidableEq, Repr

namespace PipeCost

def transfer (r : PipeResidency) : PipeCost := ⟨Pipeline.reserve, Pipeline.pipeChunks, r⟩

/-- A pipe's price, in 64-bit arithmetic. -/
def pipeBytes (cost : PipeCost) (chunk : UInt64) (rg : RowGroup) : UInt64 :=
  (cost.pipeChunks + cost.residency.chunks) * chunk + cost.residency.fixed +
    cost.residency.perRowGroup * rg.bytes

/-- How many pipes a limit allows. None of it overflows: the difference saturates. -/
def allowed (cost : PipeCost) (chunk : UInt64) (rg : RowGroup) (mem : UInt64) : Nat :=
  (mem.toNat - cost.reserve.toNat) / max (cost.pipeBytes chunk rg).toNat 1

/-- The row groups a lane may walk: the top one alone when the sink has none to price. -/
def rungs (cost : PipeCost) : List RowGroup :=
  if 0 < cost.residency.perRowGroup then RowGroup.ladder else [.mib24]

def largestRung (cost : PipeCost) (chunk : UInt64) (pipes : Nat) (mem : UInt64) :
    Option RowGroup :=
  cost.rungs.find? fun rg => decide (pipes ≤ cost.allowed chunk rg mem)

/-- The lowest rung. -/
def lowest (cost : PipeCost) : RowGroup := cost.rungs.getLast?.getD .mib24

end PipeCost

/-- The planner's answer. -/
structure PipeShape where
  chunk : UInt64
  rowGroup : RowGroup
  pipes : Nat
deriving DecidableEq, Repr

def PipeShape.modelPeak (s : PipeShape) (cost : PipeCost) : UInt64 :=
  UInt64.ofNat s.pipes * cost.pipeBytes s.chunk s.rowGroup + cost.reserve

/-- The chunk sizes a plan may choose from. -/
def chunks (pinned : Option UInt64) : List UInt64 :=
  match pinned with
  | some c => [c]
  | none => [defaultChunk, thinChunk]

/-- The chunks, fat before thin, each with the rungs, larger before smaller. -/
def choices (pinned : Option UInt64) (cost : PipeCost) : List (UInt64 × RowGroup) :=
  (chunks pinned).flatMap fun c => cost.rungs.map fun rg => (c, rg)

/-- What a choice scores: the pipes it allows, up to the ask, and one at least. -/
def score (ask : Nat) (cost : PipeCost) (mem : UInt64) (choice : UInt64 × RowGroup) : Nat :=
  max (min (cost.allowed choice.1 choice.2 mem) ask) 1

/-- Fit an ask to a memory limit. -/
def fit (ask : UInt64) (pinned : Option UInt64) (mem : Option UInt64) (cost : PipeCost) :
    PipeShape :=
  let ask := max ask.toNat 1
  let fat := pinned.getD defaultChunk
  match mem with
  | none => ⟨fat, .mib24, ask⟩
  | some mem =>
      let best := firstBest (score ask cost mem) (0, (fat, .mib24)) (choices pinned cost)
      if best.1 ≤ 1 then
        -- One pipe always runs, with the fat chunk and the largest rung it fits.
        ⟨fat, (cost.largestRung fat 1 mem).getD cost.lowest, 1⟩
      else ⟨best.2.1, best.2.2, best.1⟩

/-- An explicit parallel is never overridden. -/
def explicit (p : UInt64) (pinned : Option UInt64) (mem : Option UInt64) (cost : PipeCost) :
    PipeShape :=
  let chunk := pinned.getD defaultChunk
  let rowGroup :=
    match mem with
    | none => .mib24
    | some m => (cost.largestRung chunk p.toNat m).getD cost.lowest
  ⟨chunk, rowGroup, p.toNat⟩

/-- The chunk a caller pinned. -/
def pinnedChunk (chunkBytes : Option UInt64) : Option UInt64 :=
  chunkBytes.map fun c => if c < 64 * 1024 then 64 * 1024 else c

/-- Resolve a route's knobs. -/
def knobs (parallel chunkBytes : Option UInt64) (auto : UInt64) (mem : Option UInt64)
    (r : PipeResidency) : Except Error PipeShape :=
  let pinned := pinnedChunk chunkBytes
  match parallel with
  | some 0 => .error (.invalidInput "parallel must be at least 1")
  | some p => .ok (explicit p pinned mem (.transfer r))
  | none => .ok (fit auto pinned mem (.transfer r))

example : fit 32 none (some (256 * 1024 * 1024)) (.transfer .streaming) =
    ⟨2 * 1024 * 1024, .mib24, 10⟩ := by decide

/-! ## What a plan promises -/

/-- A pipe's price as a number. -/
def PipeCost.price (cost : PipeCost) (choice : UInt64 × RowGroup) : Nat :=
  (cost.pipeChunks.toNat + cost.residency.chunks.toNat) * choice.1.toNat +
    cost.residency.fixed.toNat + cost.residency.perRowGroup.toNat * choice.2.bytes.toNat

/-- So many pipes of a choice stay within a limit, with the reserve. -/
def PipeCost.Fits (cost : PipeCost) (pipes : Nat) (choice : UInt64 × RowGroup)
    (mem : Option UInt64) : Prop :=
  ∀ m ∈ mem, pipes * cost.price choice + cost.reserve.toNat ≤ m.toNat

/-- Fat before thin, then larger row groups before smaller ones. -/
def Before (a b : UInt64 × RowGroup) : Prop :=
  b.1 ≤ a.1 ∧ (b.1 = a.1 → b.2.bytes ≤ a.2.bytes)

/-- A plan's choice. -/
def PipeShape.choice (s : PipeShape) : UInt64 × RowGroup := (s.chunk, s.rowGroup)

/-- What the planner promises of the chunks and row groups it may choose. -/
structure Plans (pinned : Option UInt64) (cost : PipeCost) : Prop where
  exact : ∀ c ∈ choices pinned cost, (cost.pipeBytes c.1 c.2).toNat = cost.price c
  chosen : ∀ ask mem, (fit ask pinned mem cost).choice ∈ choices pinned cost
  pipes : ∀ ask mem, 1 ≤ (fit ask pinned mem cost).pipes ∧
    (fit ask pinned mem cost).pipes ≤ max ask.toNat 1
  within : ∀ ask mem, 1 < (fit ask pinned mem cost).pipes →
    cost.Fits (fit ask pinned mem cost).pipes (fit ask pinned mem cost).choice mem ∧
      ∀ m ∈ mem, (fit ask pinned mem cost).modelPeak cost ≤ m
  most : ∀ ask mem, ∀ c ∈ choices pinned cost, ∀ p ≤ max ask.toNat 1,
    cost.Fits p c mem → p ≤ (fit ask pinned mem cost).pipes
  grows : ∀ ask, ∀ m m' : UInt64, m ≤ m' →
    (fit ask pinned (some m) cost).pipes ≤ (fit ask pinned (some m') cost).pipes ∧
      (fit ask pinned (some m') cost).pipes ≤ (fit ask pinned none cost).pipes
  ties : ∀ ask mem, ∀ c ∈ choices pinned cost,
    cost.Fits (fit ask pinned mem cost).pipes c mem → Before (fit ask pinned mem cost).choice c
  asked : ∀ p mem, (explicit p pinned mem cost).pipes = p.toNat ∧
    (explicit p pinned mem cost).chunk = pinned.getD defaultChunk
  largest : ∀ p mem, 0 < p → ∀ rg ∈ cost.rungs,
    cost.Fits p.toNat (pinned.getD defaultChunk, rg) mem →
      cost.Fits p.toNat (explicit p pinned mem cost).choice mem ∧
        rg.bytes ≤ (explicit p pinned mem cost).rowGroup.bytes
  smallest : ∀ p mem, 0 < p →
    (∀ rg ∈ cost.rungs, ¬cost.Fits p.toNat (pinned.getD defaultChunk, rg) mem) →
      (explicit p pinned mem cost).rowGroup ∈ cost.rungs ∧
        ∀ rg ∈ cost.rungs, (explicit p pinned mem cost).rowGroup.bytes ≤ rg.bytes

section choices

variable {pinned : Option UInt64} {cost : PipeCost}

theorem toNat_pipeBytes (c : UInt64 × RowGroup) :
    (cost.pipeBytes c.1 c.2).toNat = cost.price c % 2 ^ 64 := by
  simp only [PipeCost.pipeBytes, PipeCost.price, UInt64.toNat_add, UInt64.toNat_mul]
  rw [Nat.add_mod (_ * _ + _), Nat.add_mod (_ * _), Nat.mul_mod]
  simp

theorem rungs_eq (cost : PipeCost) : cost.rungs = RowGroup.ladder ∨ cost.rungs = [.mib24] := by
  unfold PipeCost.rungs
  split
  · exact .inl rfl
  · exact .inr rfl

theorem bytes_le_top (rg : RowGroup) : rg.bytes ≤ RowGroup.mib24.bytes := by
  cases rg <;> decide

theorem top_mem_rungs (cost : PipeCost) : .mib24 ∈ cost.rungs := by
  obtain all | one := rungs_eq cost
  · rw [all]
    exact .head _
  · rw [one]
    exact .head _

theorem rungs_sorted (cost : PipeCost) : cost.rungs.Pairwise fun a b => b.bytes ≤ a.bytes := by
  obtain all | one := rungs_eq cost
  · rw [all]
    decide
  · rw [one]
    exact List.pairwise_singleton _ _

theorem lowest_spec (cost : PipeCost) :
    cost.lowest ∈ cost.rungs ∧ ∀ rg ∈ cost.rungs, cost.lowest.bytes ≤ rg.bytes := by
  unfold PipeCost.lowest
  obtain all | one := rungs_eq cost
  · rw [all]
    decide
  · rw [one]
    decide

theorem mem_choices {c : UInt64 × RowGroup} :
    c ∈ choices pinned cost ↔ c.1 ∈ chunks pinned ∧ c.2 ∈ cost.rungs := by
  simp only [choices, List.mem_flatMap, List.mem_map]
  constructor
  · rintro ⟨chunk, there, rg, rung, rfl⟩
    exact ⟨there, rung⟩
  · rintro ⟨there, rung⟩
    exact ⟨c.1, there, c.2, rung, rfl⟩

/-- The fat chunk is the largest. -/
theorem fat_spec (pinned : Option UInt64) :
    pinned.getD defaultChunk ∈ chunks pinned ∧ ∀ c ∈ chunks pinned,
      c ≤ pinned.getD defaultChunk := by
  cases pinned with
  | none =>
      refine ⟨.head _, fun c mem => ?_⟩
      have thinner : thinChunk ≤ defaultChunk := by decide
      rcases List.mem_cons.mp mem with rfl | thin
      · exact UInt64.le_refl _
      · rw [List.mem_singleton.mp thin]
        exact thinner
  | some c =>
      refine ⟨.head _, fun c' mem => ?_⟩
      rw [List.mem_singleton.mp mem]
      exact UInt64.le_refl _

theorem rung_choices (rg : RowGroup) (rung : rg ∈ cost.rungs) :
    (pinned.getD defaultChunk, rg) ∈ choices pinned cost :=
  mem_choices.mpr ⟨(fat_spec pinned).1, rung⟩

theorem choices_sorted (pinned : Option UInt64) (cost : PipeCost) :
    (choices pinned cost).Pairwise Before := by
  have inner (chunk : UInt64) : (cost.rungs.map fun rg => (chunk, rg)).Pairwise Before := by
    rw [List.pairwise_map]
    exact (rungs_sorted cost).imp fun smaller => ⟨UInt64.le_refl _, fun _ => smaller⟩
  cases pinned with
  | some chunk =>
      rw [choices, chunks, List.flatMap_singleton]
      exact inner chunk
  | none =>
      rw [choices, chunks, List.flatMap_cons, List.flatMap_singleton, List.pairwise_append]
      refine ⟨inner _, inner _, fun a mem b mem' => ?_⟩
      obtain ⟨rg, -, rfl⟩ := List.mem_map.mp mem
      obtain ⟨rg', -, rfl⟩ := List.mem_map.mp mem'
      have thinner : thinChunk ≤ defaultChunk ∧ thinChunk ≠ defaultChunk := by decide
      exact ⟨thinner.1, fun same => absurd same thinner.2⟩

end choices

/-- Every choice's price is a 64-bit number, and not zero. -/
def Priced (pinned : Option UInt64) (cost : PipeCost) : Prop :=
  ∀ c ∈ choices pinned cost, 0 < cost.price c ∧ cost.price c < 2 ^ 64

/-- The search's answer: one pipe when nothing scores more, else the first of the best. -/
theorem fit_some (ask : UInt64) (pinned : Option UInt64) (m : UInt64) (cost : PipeCost) :
    let shape := fit ask pinned (some m) cost
    (shape.pipes = 1 ∧ (∀ c ∈ choices pinned cost, score (max ask.toNat 1) cost m c ≤ 1) ∧
      shape.chunk = pinned.getD defaultChunk ∧
      shape.rowGroup = (cost.largestRung (pinned.getD defaultChunk) 1 m).getD cost.lowest) ∨
    (1 < shape.pipes ∧ shape.pipes = score (max ask.toNat 1) cost m shape.choice ∧
      (∀ c ∈ choices pinned cost, score (max ask.toNat 1) cost m c ≤ shape.pipes) ∧
      ∃ before after, choices pinned cost = before ++ shape.choice :: after ∧
        ∀ c ∈ before, score (max ask.toNat 1) cost m c < shape.pipes) := by
  intro shape
  let start : Nat × UInt64 × RowGroup := (0, (pinned.getD defaultChunk, .mib24))
  have bound : ∀ c ∈ choices pinned cost, score (max ask.toNat 1) cost m c ≤ _ :=
    fun c there => Foundation.score_le_firstBest start there
  by_cases one : (firstBest (score (max ask.toNat 1) cost m) start (choices pinned cost)).1 ≤ 1
  · have is : shape = ⟨pinned.getD defaultChunk,
        (cost.largestRung (pinned.getD defaultChunk) 1 m).getD cost.lowest, 1⟩ := if_pos one
    rw [is]
    exact .inl ⟨rfl, fun c there => (bound c there).trans one, rfl, rfl⟩
  · have is : shape = _ := if_neg one
    have better : start.1 <
        (firstBest (score (max ask.toNat 1) cost m) start (choices pinned cost)).1 := by
      change 0 < _
      omega
    obtain ⟨before, after, split, scored, below⟩ := Foundation.firstBest_first better
    rw [is]
    exact .inr ⟨Nat.lt_of_not_le one, scored, bound, before, after, split, below⟩

theorem pipes_bounds (ask : UInt64) (pinned mem : Option UInt64) (cost : PipeCost) :
    1 ≤ (fit ask pinned mem cost).pipes ∧ (fit ask pinned mem cost).pipes ≤ max ask.toNat 1 := by
  cases mem with
  | none => exact ⟨Nat.le_max_right .., le_rfl⟩
  | some m =>
      obtain ⟨one, -⟩ | ⟨many, scored, -⟩ := fit_some ask pinned m cost
      · omega
      · refine ⟨by omega, ?_⟩
        rw [scored]
        unfold score
        omega

section fit

variable {pinned : Option UInt64} {cost : PipeCost} (priced : Priced pinned cost)
variable {ask m : UInt64} {mem : Option UInt64} {p : Nat} {c : UInt64 × RowGroup}

include priced

theorem exact_price (there : c ∈ choices pinned cost) :
    (cost.pipeBytes c.1 c.2).toNat = cost.price c := by
  rw [toNat_pipeBytes, Nat.mod_eq_of_lt (priced c there).2]

/-- Some pipes fit exactly when the limit allows as many. -/
theorem fits_iff (there : c ∈ choices pinned cost) (some_pipes : 0 < p) :
    cost.Fits p c (some m) ↔ p ≤ cost.allowed c.1 c.2 m := by
  have positive := (priced c there).1
  rw [PipeCost.allowed, exact_price priced there, Nat.max_eq_left positive,
    Nat.le_div_iff_mul_le positive]
  constructor
  · intro fits
    have least := Nat.mul_pos some_pipes positive
    have total := fits m rfl
    omega
  · intro room m' here
    cases Option.mem_some.mp here
    have least := Nat.mul_pos some_pipes positive
    omega

/-- The pipes a choice scores fit, when there is more than one. -/
theorem fits_of_score (there : c ∈ choices pinned cost)
    (many : 1 < score (max ask.toNat 1) cost m c) :
    cost.Fits (score (max ask.toNat 1) cost m c) c (some m) := by
  rw [fits_iff priced there (by omega)]
  unfold score at many ⊢
  omega

/-- Pipes that fit, up to the ask, are scored. -/
theorem le_score (there : c ∈ choices pinned cost) (asked : p ≤ max ask.toNat 1)
    (fits : cost.Fits p c (some m)) : p ≤ score (max ask.toNat 1) cost m c := by
  obtain rfl | some_pipes := Nat.eq_zero_or_pos p
  · exact Nat.zero_le _
  · have room := (fits_iff priced there some_pipes).mp fits
    unfold score
    omega

/-- The largest rung so many pipes fit, if there is one. -/
theorem largestRung_spec (inside : ∀ rg ∈ cost.rungs, (c.1, rg) ∈ choices pinned cost)
    (some_pipes : 0 < p) :
    (∀ rg ∈ cost.rungs, cost.Fits p (c.1, rg) (some m) →
      cost.Fits p (c.1, (cost.largestRung c.1 p m).getD cost.lowest) (some m) ∧
        rg.bytes ≤ ((cost.largestRung c.1 p m).getD cost.lowest).bytes) ∧
    (cost.largestRung c.1 p m).getD cost.lowest ∈ cost.rungs ∧
    ((∀ rg ∈ cost.rungs, ¬cost.Fits p (c.1, rg) (some m)) →
      ∀ rg ∈ cost.rungs, ((cost.largestRung c.1 p m).getD cost.lowest).bytes ≤ rg.bytes) := by
  cases found : cost.largestRung c.1 p m with
  | none =>
      obtain ⟨member, lowest⟩ := lowest_spec cost
      refine ⟨fun rg rung fits => ?_, member, fun _ => lowest⟩
      have refused := List.find?_eq_none.mp found rg rung
      rw [decide_eq_true_eq] at refused
      exact absurd ((fits_iff priced (inside rg rung) some_pipes).mp fits) refused
  | some rg' =>
      obtain ⟨room, before, after, split, worse⟩ := List.find?_eq_some_iff_append.mp found
      have rung' : rg' ∈ cost.rungs := by
        rw [split]
        exact List.mem_append_right _ (.head _)
      have fits' : cost.Fits p (c.1, rg') (some m) :=
        (fits_iff priced (inside rg' rung') some_pipes).mpr (of_decide_eq_true room)
      refine ⟨fun rg rung fits => ⟨fits', ?_⟩, rung', fun none_fits =>
        absurd fits' (none_fits rg' rung')⟩
      have sorted := rungs_sorted cost
      rw [split] at sorted rung
      cases List.mem_append.mp rung with
      | inl earlier =>
          have refused := worse rg earlier
          rw [Bool.not_eq_true', decide_eq_false_iff_not] at refused
          rw [split] at inside
          exact absurd ((fits_iff priced (inside rg rung) some_pipes).mp fits) refused
      | inr later =>
          cases List.mem_cons.mp later with
          | inl here =>
              rw [here]
              exact UInt64.le_refl _
          | inr later =>
              exact (List.pairwise_cons.mp (List.pairwise_append.mp sorted).2.1).1 rg later

/-- Whatever fits, no more than the planner's pipes fit. -/
theorem le_pipes (there : c ∈ choices pinned cost) (asked : p ≤ max ask.toNat 1)
    (fits : cost.Fits p c mem) : p ≤ (fit ask pinned mem cost).pipes := by
  cases mem with
  | none => exact asked
  | some m =>
      have scored := le_score priced there asked fits
      obtain ⟨one, most, -⟩ | ⟨-, -, most, -⟩ := fit_some ask pinned m cost
      · have least := most c there
        omega
      · exact scored.trans (most c there)

/-- More pipes than one fit, with the planner's choice. -/
theorem pipes_fit (many : 1 < (fit ask pinned mem cost).pipes) :
    cost.Fits (fit ask pinned mem cost).pipes (fit ask pinned mem cost).choice mem := by
  cases mem with
  | none => nofun
  | some m =>
      obtain ⟨one, -⟩ | ⟨-, scored, -, before, after, split, -⟩ := fit_some ask pinned m cost
      · omega
      · have there : (fit ask pinned (some m) cost).choice ∈ choices pinned cost := by
          rw [split]
          exact List.mem_append_right _ (.head _)
        rw [scored] at many ⊢
        exact fits_of_score priced there many

theorem choice_mem (ask : UInt64) (mem : Option UInt64) :
    (fit ask pinned mem cost).choice ∈ choices pinned cost := by
  cases mem with
  | none => exact mem_choices.mpr ⟨(fat_spec pinned).1, top_mem_rungs cost⟩
  | some m =>
      obtain ⟨-, -, fat, rung⟩ | ⟨-, -, -, before, after, split, -⟩ := fit_some ask pinned m cost
      · refine mem_choices.mpr ⟨?_, ?_⟩
        · rw [PipeShape.choice, fat]
          exact (fat_spec pinned).1
        · rw [PipeShape.choice, rung]
          exact (largestRung_spec (c := (pinned.getD defaultChunk, .mib24)) priced rung_choices
            Nat.one_pos).2.1
      · rw [split]
        exact List.mem_append_right _ (.head _)

/-- Among the choices that allow as many pipes, the first one wins. -/
theorem choice_before (there : c ∈ choices pinned cost)
    (fits : cost.Fits (fit ask pinned mem cost).pipes c mem) :
    Before (fit ask pinned mem cost).choice c := by
  obtain ⟨fatIs, fattest⟩ := fat_spec pinned
  obtain ⟨chunk, rung⟩ := mem_choices.mp there
  cases mem with
  | none =>
      refine ⟨fattest _ chunk, fun _ => ?_⟩
      exact bytes_le_top c.2
  | some m =>
      obtain ⟨one, -, fat, rungIs⟩ | ⟨many, -, -, before, after, split, below⟩ :=
        fit_some ask pinned m cost
      · refine ⟨?_, fun same => ?_⟩
        · rw [PipeShape.choice, fat]
          exact fattest _ chunk
        · rw [PipeShape.choice, fat] at same
          rw [one] at fits
          have inside : ∀ rg ∈ cost.rungs, (c.1, rg) ∈ choices pinned cost :=
            fun rg rung => mem_choices.mpr ⟨chunk, rung⟩
          have larger := ((largestRung_spec priced inside Nat.one_pos).1 c.2 rung fits).2
          have same : c.1 = pinned.getD defaultChunk := same
          rw [same] at larger
          rw [PipeShape.choice, rungIs]
          exact larger
      · have scored := le_score priced there (pipes_bounds ask pinned (some m) cost).2 fits
        have sorted := choices_sorted pinned cost
        rw [split] at there sorted
        cases List.mem_append.mp there with
        | inl earlier => exact absurd scored (Nat.not_le_of_lt (below c earlier))
        | inr later =>
            cases List.mem_cons.mp later with
            | inl here =>
                rw [here]
                exact ⟨UInt64.le_refl _, fun _ => UInt64.le_refl _⟩
            | inr later =>
                exact (List.pairwise_cons.mp (List.pairwise_append.mp sorted).2.1).1 c later

end fit

/-- Exact prices are what a plan's promises rest on. -/
theorem plans_of_priced {pinned : Option UInt64} {cost : PipeCost} (priced : Priced pinned cost) :
    Plans pinned cost where
  exact _ there := exact_price priced there
  chosen ask mem := choice_mem priced ask mem
  pipes ask mem := pipes_bounds ask pinned mem cost
  within ask mem many := by
    have fits := pipes_fit priced many
    refine ⟨fits, fun m limit => ?_⟩
    have price := exact_price priced (choice_mem priced ask mem)
    have within := fits m limit
    have small : m.toNat < 2 ^ 64 := m.toNat_lt
    have pipesIs : (fit ask pinned mem cost).pipes % 2 ^ 64 = (fit ask pinned mem cost).pipes := by
      have asked := (pipes_bounds ask pinned mem cost).2
      have wide : ask.toNat < 2 ^ 64 := ask.toNat_lt
      exact Nat.mod_eq_of_lt (by omega)
    rw [UInt64.le_iff_toNat_le, PipeShape.modelPeak, UInt64.toNat_add, UInt64.toNat_mul,
      UInt64.toNat_ofNat', pipesIs]
    change ((fit ask pinned mem cost).pipes *
      (cost.pipeBytes (fit ask pinned mem cost).choice.1 (fit ask pinned mem cost).choice.2).toNat %
        2 ^ 64 + cost.reserve.toNat) % 2 ^ 64 ≤ m.toNat
    rw [price, Nat.mod_eq_of_lt (by omega), Nat.mod_eq_of_lt (by omega)]
    exact within
  most _ _ _ there _ asked fits := le_pipes priced there asked fits
  grows ask m m' more := by
    have asked := (pipes_bounds ask pinned (some m) cost).2
    refine ⟨?_, (pipes_bounds ask pinned (some m') cost).2⟩
    by_cases many : 1 < (fit ask pinned (some m) cost).pipes
    · refine le_pipes priced (choice_mem priced ask (some m)) asked fun limit here => ?_
      cases Option.mem_some.mp here
      exact (pipes_fit priced many m rfl).trans (UInt64.le_iff_toNat_le.mp more)
    · have least := (pipes_bounds ask pinned (some m') cost).1
      omega
  ties _ _ _ there fits := choice_before priced there fits
  asked _ _ := ⟨rfl, rfl⟩
  largest p mem some_pipes rg rung fits := by
    cases mem with
    | none => exact ⟨nofun, bytes_le_top rg⟩
    | some m =>
        exact (largestRung_spec (c := (pinned.getD defaultChunk, .mib24)) priced rung_choices
          (UInt64.lt_iff_toNat_lt.mp some_pipes)).1 rg rung fits
  smallest p mem some_pipes none_fits := by
    cases mem with
    | none => exact absurd nofun (none_fits .mib24 (top_mem_rungs cost))
    | some m =>
        obtain ⟨-, rung, smallest⟩ := largestRung_spec (c := (pinned.getD defaultChunk, .mib24))
          (m := m) priced rung_choices (UInt64.lt_iff_toNat_lt.mp some_pipes)
        exact ⟨rung, smallest none_fits⟩

/-- A pinned chunk is at least 64 KiB, so a pipe of a transfer has a price. -/
theorem price_pos {chunkBytes : Option UInt64} {r : PipeResidency} {c : UInt64 × RowGroup}
    (there : c ∈ choices (pinnedChunk chunkBytes) (.transfer r)) :
    0 < (PipeCost.transfer r).price c := by
  obtain ⟨chunk, -⟩ := mem_choices.mp there
  have positive : 0 < c.1.toNat := by
    cases chunkBytes with
    | none =>
        have fat : 0 < defaultChunk.toNat := by decide
        have thin : 0 < thinChunk.toNat := by decide
        have both : ∀ c ∈ chunks none, 0 < c.toNat := by
          intro c mem
          rcases List.mem_cons.mp mem with rfl | mem
          · exact fat
          · rw [List.mem_singleton.mp mem]
            exact thin
        exact both c.1 chunk
    | some b =>
        rw [List.mem_singleton.mp chunk]
        dsimp only
        split
        · decide
        · rename_i large
          have floor := UInt64.le_iff_toNat_le.mp (UInt64.not_lt.mp large)
          exact Nat.lt_of_lt_of_le (by decide) floor
  have ten : 0 < Pipeline.pipeChunks.toNat := by decide
  have term : 0 < ((PipeCost.transfer r).pipeChunks.toNat +
      (PipeCost.transfer r).residency.chunks.toNat) * c.1.toNat :=
    Nat.mul_pos (Nat.add_pos_left ten _) positive
  unfold PipeCost.price
  omega

/-- The planner keeps its promises, with exact prices, just when every price of a choice is
a 64-bit number. -/
theorem plans_iff (chunkBytes : Option UInt64) (r : PipeResidency) :
    Plans (pinnedChunk chunkBytes) (.transfer r) ↔
      ∀ c ∈ choices (pinnedChunk chunkBytes) (.transfer r),
        (PipeCost.transfer r).price c < 2 ^ 64 := by
  constructor
  · intro plans c there
    rw [← plans.exact c there]
    exact UInt64.toNat_lt _
  · exact fun small => plans_of_priced fun c there => ⟨price_pos there, small c there⟩

/-- A pinned chunk whose price wraps to four bytes: two pipes are planned under 256 MiB. -/
theorem plans_overflow :
    ¬Plans (pinnedChunk (some 1844674407370955162)) (.transfer .streaming) ∧
      (fit 2 (pinnedChunk (some 1844674407370955162)) (some (256 * 1024 * 1024))
        (.transfer .streaming)).pipes = 2 := by
  have planned : (fit 2 (pinnedChunk (some 1844674407370955162)) (some (256 * 1024 * 1024))
      (.transfer .streaming)).pipes = 2 := by decide
  refine ⟨fun plans => ?_, planned⟩
  have fits := (plans.within 2 (some (256 * 1024 * 1024)) (by omega)).1
    (256 * 1024 * 1024) rfl
  revert fits
  decide

end Pipeline

end Apitap
