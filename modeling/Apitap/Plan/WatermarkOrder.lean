import Apitap.Plan.WatermarkValue
import Mathlib.Data.List.Perm.Basic
import Mathlib.Order.Lattice

/-!
# One order of watermarks

`wmMax` keeps the left text unless it compares below the right one. On a set of texts
whose numbers doubles keep apart wherever doubles are used, that is the larger of the
two numbers, so a fold of the set denotes its maximum whatever the order it is read in.
-/

namespace Apitap.Plan

open Foundation
open Mysource (Text)

/-! ### Keeping the left of two -/

section Keep

variable {α : Type} {wins : α → α → Bool}

/-- The left element unless the right one is better. -/
def keep (wins : α → α → Bool) (x y : α) : α := if wins x y then x else y

/-- Keeping the better of two is associative for a total preorder. -/
theorem keep_assoc {x y z : α}
    (trans : ∀ a b c, wins a b = true → wins b c = true → wins a c = true)
    (total : ∀ a b, wins a b = false → wins b a = true) :
    keep wins (keep wins x y) z = keep wins x (keep wins y z) := by
  unfold keep
  cases left : wins x y with
  | true =>
      cases right : wins y z with
      | true => simp [left, trans x y z left right]
      | false => simp
  | false =>
      cases right : wins y z with
      | true => simp [left, right]
      | false =>
          have last : wins x z = false := by
            by_contra wrong
            rw [Bool.not_eq_false] at wrong
            rw [trans x z y wrong (total y z right)] at left
            nomatch left
          simp [right, last]

end Keep

/-! ### The order the comparison means -/

/-- What a mark denotes; nothing at all is below every number. -/
def markValue (m : Option Text) : WithBot Extended :=
  match m.bind reading with
  | some x => (x : WithBot Extended)
  | none => ⊥

/-- Wherever a comparison goes through doubles, they keep the two numbers apart. -/
def Separated (ts : Set Text) : Prop :=
  ∀ a ∈ ts, ∀ b ∈ ts, ¬(plain a = true ∧ plain b = true) →
    ∀ x y, reading a = some x → reading b = some y → x.toBinary64 = y.toBinary64 → x = y

/-- The comparison of a set's texts is that of their numbers. -/
def Agrees (ts : Set Text) : Prop :=
  ∀ a ∈ ts, ∀ b ∈ ts, ∀ x y, reading a = some x → reading b = some y →
    cmpNumericText a b = some (compare x y)

theorem cmpNumericText_readable {a b : Text} {x y : Extended} (left : reading a = some x)
    (right : reading b = some y) : cmpNumericText a b =
      some (if plain a && plain b then compare x y else compare x.toBinary64 y.toBinary64) := by
  rw [cmpNumericText_eq, left, right]
  rfl

theorem agrees_iff (ts : Set Text) : Agrees ts ↔ Separated ts := by
  constructor
  · intro agrees a memA b memB rounded x y left right merged
    have exact := agrees a memA b memB x y left right
    have through : (plain a && plain b) = false := by
      rw [← Bool.not_eq_true, Bool.and_eq_true]
      exact rounded
    rw [cmpNumericText_readable left right, if_neg (by rw [through]; nofun), merged,
      compare_eq_iff_eq.mpr rfl] at exact
    exact compare_eq_iff_eq.mp (Option.some.inj exact).symm
  · intro separated a memA b memB x y left right
    rw [cmpNumericText_readable left right]
    cases through : plain a && plain b with
    | true => rfl
    | false =>
        have rounded : ¬(plain a = true ∧ plain b = true) := by
          rw [← Bool.and_eq_true, through]
          nofun
        rw [if_neg (by nofun),
          Extended.compare_toBinary64 (separated a memA b memB rounded x y left right)]

/-- Plain texts are always compared exactly. -/
theorem separated_of_plain {ts : Set Text} (all : ∀ a ∈ ts, plain a = true) : Separated ts :=
  fun a memA b memB rounded => absurd ⟨all a memA, all b memB⟩ rounded

/-- The order of the numbers, and that of strings among texts that denote none. -/
def beats (a b : Text) : Bool :=
  match reading a, reading b with
  | some x, some y => decide (y ≤ x)
  | some _, none => true
  | none, some _ => false
  | none, none => atLeast a b

theorem beats_trans (a b c : Text) (first : beats a b = true) (second : beats b c = true) :
    beats a c = true := by
  unfold beats at *
  cases readA : reading a <;> cases readB : reading b <;> cases readC : reading c <;>
    simp only [readA, readB, readC, decide_eq_true_eq, Bool.false_eq_true] at first second ⊢
  · exact Std.TransCmp.isGE_trans first second
  · exact second.trans first

theorem beats_total (a b : Text) (loses : beats a b = false) : beats b a = true := by
  unfold beats at *
  cases readA : reading a <;> cases readB : reading b <;>
    simp only [readA, readB, decide_eq_true_eq, decide_eq_false_iff_not,
      Bool.true_eq_false] at loses ⊢
  · have below := Std.OrientedCmp.gt_of_not_isGE (Bool.not_eq_true _ ▸ loses)
    unfold atLeast
    rw [below]
    rfl
  · exact (not_le.mp loses).le

theorem cmpNumericText_unreadable {a b : Text} (missing : reading a = none ∨ reading b = none) :
    cmpNumericText a b = none := by
  rw [cmpNumericText_eq]
  cases missing with
  | inl missing =>
      rw [missing]
      rfl
  | inr missing =>
      rw [missing]
      cases reading a <;> rfl

theorem cmp_self_isSome (a : Text) : (cmpNumericText a a).isSome = (reading a).isSome := by
  rw [cmpNumericText_eq]
  cases reading a <;> rfl

/-- A text denoting a number wins against one that does not. -/
theorem xWins_unreadable {a b : Text} (missing : reading a = none ∨ reading b = none) :
    xWins a b true = beats a b := by
  have selfA := cmp_self_isSome a
  have selfB := cmp_self_isSome b
  rw [xWins, if_pos rfl, cmpNumericText_unreadable missing]
  unfold beats
  cases cmpA : cmpNumericText a a <;> cases cmpB : cmpNumericText b b <;>
    cases readA : reading a <;> cases readB : reading b <;>
    simp_all

theorem xWins_eq {ts : Set Text} (agrees : Agrees ts) {a b : Text} (memA : a ∈ ts) (memB : b ∈ ts) :
    xWins a b true = beats a b := by
  cases readA : reading a with
  | none => exact xWins_unreadable (Or.inl readA)
  | some x =>
      cases readB : reading b with
      | none => exact xWins_unreadable (Or.inr readB)
      | some y =>
          rw [xWins, if_pos rfl, agrees a memA b memB x y readA readB, beats, readA, readB]
          change decide (compare x y ≠ .lt) = decide (y ≤ x)
          rw [decide_eq_decide, ne_eq, compare_lt_iff_lt, not_lt]

/-! ### Folding marks -/

section Fold

variable {ts : Set Text}

/-- The texts of a mark belong to a set. -/
def From (ts : Set Text) (m : Option Text) : Prop := ∀ t ∈ m, t ∈ ts

/-- What a sink keeps of the marks it reads one by one. -/
def foldMarks (marks : List (Option Text)) : Option Text :=
  marks.foldl (fun acc m => wmMax acc m true) none

theorem wmMax_some (agrees : Agrees ts) {a b : Text} (memA : a ∈ ts) (memB : b ∈ ts) :
    wmMax (some a) (some b) true = some (keep beats a b) := by
  rw [wmMax, xWins_eq agrees memA memB]
  rfl

theorem keep_mem {a b : Text} (memA : a ∈ ts) (memB : b ∈ ts) : keep beats a b ∈ ts := by
  unfold keep
  split
  · exact memA
  · exact memB

theorem from_wmMax (agrees : Agrees ts) {a b : Option Text} (fromA : From ts a)
    (fromB : From ts b) : From ts (wmMax a b true) := by
  intro t mem
  cases a with
  | none => cases b with
    | none => nomatch mem
    | some b => exact fromB t mem
  | some a =>
      cases b with
      | none => exact fromA t mem
      | some b =>
          rw [wmMax_some agrees (fromA a rfl) (fromB b rfl)] at mem
          rw [← Option.some.inj mem]
          exact keep_mem (fromA a rfl) (fromB b rfl)

theorem wmMax_none (a : Option Text) : wmMax a none true = a := by cases a <;> rfl

theorem none_wmMax (a : Option Text) : wmMax none a true = a := by cases a <;> rfl

theorem markValue_none : markValue none = ⊥ := rfl

theorem markValue_some (a : Text) :
    markValue (some a) = match reading a with
      | some x => (x : WithBot Extended)
      | none => ⊥ := rfl

theorem markValue_keep (a b : Text) :
    markValue (some (keep beats a b)) = max (markValue (some a)) (markValue (some b)) := by
  have winner := @markValue_some
  unfold keep beats
  cases readA : reading a with
  | none =>
      rw [winner a, readA, max_eq_right bot_le]
      cases readB : reading b with
      | none =>
          dsimp only
          rw [winner b, readB]
          split
          · rw [winner a, readA]
          · rw [winner b, readB]
      | some y => rfl
  | some x =>
      cases readB : reading b with
      | none =>
          rw [winner b, readB, max_eq_left bot_le]
          rfl
      | some y =>
          dsimp only
          rw [winner a, readA, winner b, readB]
          by_cases le : y ≤ x
          · rw [if_pos (decide_eq_true le), winner a, readA,
              max_eq_left (WithBot.coe_le_coe.mpr le)]
          · rw [if_neg (by simpa using le), winner b, readB,
              max_eq_right (WithBot.coe_le_coe.mpr (not_le.mp le).le)]

/-- The larger of two marks denotes the larger of the two numbers. -/
theorem markValue_wmMax (agrees : Agrees ts) {a b : Option Text} (fromA : From ts a)
    (fromB : From ts b) : markValue (wmMax a b true) = max (markValue a) (markValue b) := by
  cases a with
  | none => rw [none_wmMax, markValue_none, max_eq_right bot_le]
  | some a =>
      cases b with
      | none => rw [wmMax_none, markValue_none, max_eq_left bot_le]
      | some b =>
          rw [wmMax_some agrees (fromA a rfl) (fromB b rfl), markValue_keep]

theorem wmMax_assoc (agrees : Agrees ts) {a b c : Option Text} (fromA : From ts a)
    (fromB : From ts b) (fromC : From ts c) :
    wmMax (wmMax a b true) c true = wmMax a (wmMax b c true) true := by
  cases a with
  | none => rw [none_wmMax, none_wmMax]
  | some a =>
      cases b with
      | none => rw [wmMax_none, none_wmMax]
      | some b =>
          cases c with
          | none => rw [wmMax_none, wmMax_none]
          | some c =>
              have memA := fromA a rfl
              have memB := fromB b rfl
              have memC := fromC c rfl
              rw [wmMax_some agrees memA memB, wmMax_some agrees memB memC,
                wmMax_some agrees (keep_mem memA memB) memC,
                wmMax_some agrees memA (keep_mem memB memC), keep_assoc beats_trans beats_total]

/-- A fold of marks denotes the largest number among them. -/
theorem markValue_foldl (agrees : Agrees ts) {marks : List (Option Text)}
    (all : ∀ m ∈ marks, From ts m) {acc : Option Text} (start : From ts acc) :
    markValue (marks.foldl (fun acc m => wmMax acc m true) acc) =
      (marks.map markValue).foldl max (markValue acc) := by
  induction marks generalizing acc with
  | nil => rfl
  | cons m marks ih =>
      have first := all m List.mem_cons_self
      rw [List.foldl_cons, ih (fun m mem => all m (List.mem_cons_of_mem _ mem))
        (from_wmMax agrees start first), markValue_wmMax agrees start first, List.map_cons,
        List.foldl_cons]

theorem markValue_foldMarks (agrees : Agrees ts) {marks : List (Option Text)}
    (all : ∀ m ∈ marks, From ts m) :
    markValue (foldMarks marks) = (marks.map markValue).foldl max ⊥ := by
  have start : From ts none := nofun
  exact markValue_foldl agrees all start

end Fold

/-! ### A state mark against a data mark -/

/-- Where neither text is a number, the data mark is taken. -/
theorem wmPick_unreadable {state data : Text} (missing : reading state = none) :
    wmPick true state data = data := by
  have self := cmp_self_isSome state
  rw [missing, Option.isSome_none] at self
  rw [wmPick, if_pos rfl, cmpNumericText_unreadable (Or.inl missing)]
  dsimp only
  rw [self, if_neg (by nofun)]

/-- Where one of the two is a number, `wmPick` is `wmMax`. -/
theorem wmPick_eq {state data : Text}
    (readable : reading state ≠ none ∨ reading data ≠ none) :
    some (wmPick true state data) = wmMax (some state) (some data) true := by
  rw [wmMax]
  cases readS : reading state with
  | none =>
      have data : reading data ≠ none := readable.resolve_left fun some => some readS
      rw [wmPick_unreadable readS, xWins_unreadable (Or.inl readS), beats, readS]
      cases readD : reading _ with
      | none => exact absurd readD data
      | some y => rfl
  | some x =>
      cases readD : reading data with
      | none =>
          have self := cmp_self_isSome state
          rw [readS, Option.isSome_some] at self
          rw [xWins_unreadable (Or.inr readD), beats, readS, readD, wmPick, if_pos rfl,
            cmpNumericText_unreadable (Or.inr readD)]
          dsimp only
          rw [self]
      | some y =>
          rw [wmPick, if_pos rfl, xWins, if_pos rfl, cmpNumericText_readable readS readD]
          simp only [decide_eq_true_eq]

theorem markValue_wmPick {ts : Set Text} (agrees : Agrees ts) {state data : Text}
    (memS : state ∈ ts) (memD : data ∈ ts) :
    markValue (some (wmPick true state data)) =
      max (markValue (some state)) (markValue (some data)) := by
  by_cases readable : reading state ≠ none ∨ reading data ≠ none
  · rw [wmPick_eq readable, wmMax_some agrees memS memD, markValue_keep]
  · rw [not_or, not_not, not_not] at readable
    obtain ⟨missing, missing'⟩ := readable
    rw [wmPick_unreadable missing, markValue_some state, missing, max_eq_right bot_le]

theorem from_foldMarks {ts : Set Text} (agrees : Agrees ts) {marks : List (Option Text)}
    (all : ∀ m ∈ marks, From ts m) : From ts (foldMarks marks) := by
  have kept : ∀ acc, From ts acc →
      From ts (marks.foldl (fun acc m => wmMax acc m true) acc) := by
    induction marks with
    | nil => exact fun acc start => start
    | cons m marks ih =>
        intro acc start
        exact ih (fun m mem => all m (List.mem_cons_of_mem _ mem)) _
          (from_wmMax agrees start (all m List.mem_cons_self))
  exact kept none nofun

/-- The marks of a set of texts have one order. -/
structure OneOrder (ts : Set Text) : Prop where
  compares : Agrees ts
  commutes : ∀ a b, From ts a → From ts b →
    markValue (wmMax a b true) = markValue (wmMax b a true)
  associates : ∀ a b c, From ts a → From ts b → From ts c →
    wmMax (wmMax a b true) c true = wmMax a (wmMax b c true) true
  above : ∀ a b, From ts a → From ts b →
    markValue a ≤ markValue (wmMax a b true) ∧ markValue b ≤ markValue (wmMax a b true)
  folds : ∀ marks marks' : List (Option Text), marks.Perm marks' → (∀ m ∈ marks, From ts m) →
    markValue (foldMarks marks) = markValue (foldMarks marks')
  resolves : ∀ state marks, state ∈ ts → (∀ m ∈ marks, From ts m) → ∀ dest sourceId,
    ∃ mark, resolveWatermark (some state) (foldMarks marks) false (.greatest true) dest sourceId =
      .ok (some mark) ∧ markValue (some mark) = markValue (foldMarks (some state :: marks))

theorem oneOrder_of_agrees {ts : Set Text} (agrees : Agrees ts) : OneOrder ts where
  compares := agrees
  commutes a b fromA fromB := by
    rw [markValue_wmMax agrees fromA fromB, markValue_wmMax agrees fromB fromA, max_comm]
  associates _ _ _ := wmMax_assoc agrees
  above a b fromA fromB := by
    rw [markValue_wmMax agrees fromA fromB]
    exact ⟨le_max_left _ _, le_max_right _ _⟩
  folds marks marks' same all := by
    have all' : ∀ m ∈ marks', From ts m := fun m mem => all m (same.mem_iff.mpr mem)
    rw [markValue_foldMarks agrees all, markValue_foldMarks agrees all']
    exact (same.map markValue).foldl_eq ⊥
  resolves state marks memS all dest sourceId := by
    have start : From ts (some state) := fun t mem => Option.some.inj mem ▸ memS
    have every : ∀ m ∈ some state :: marks, From ts m := by
      intro m mem
      cases List.mem_cons.mp mem with
      | inl here => exact here ▸ start
      | inr mem => exact all m mem
    have value : markValue (foldMarks (some state :: marks)) =
        max (markValue (some state)) (markValue (foldMarks marks)) := by
      have total := markValue_foldl agrees all start
      have pulled : (marks.map markValue).foldl max (max (markValue (some state)) ⊥) =
          max (markValue (some state)) ((marks.map markValue).foldl max ⊥) := List.foldl_assoc
      rw [max_eq_left bot_le] at pulled
      rw [markValue_foldMarks agrees all, ← pulled]
      exact total
    rw [value]
    cases folded : foldMarks marks with
    | none => exact ⟨state, rfl, by rw [markValue_none, max_eq_left bot_le]⟩
    | some data =>
        have memD : data ∈ ts := from_foldMarks agrees all data folded
        exact ⟨wmPick true state data, rfl, markValue_wmPick agrees memS memD⟩

/-- The marks of a set of texts have one order exactly where doubles keep apart the
numbers they are used for; a text that is no number loses, and a pick is the larger mark
as long as one of the two is a number. -/
theorem one_order (ts : Set Text) :
    (OneOrder ts ↔ Separated ts) ∧
      (∀ a, wmMax a a true = a) ∧
      (∀ a b, reading a = none → reading b ≠ none →
        wmMax (some a) (some b) true = some b ∧ wmMax (some b) (some a) true = some b) ∧
      (∀ state data, reading state ≠ none ∨ reading data ≠ none →
        some (wmPick true state data) = wmMax (some state) (some data) true) ∧
      ∀ state data, reading state = none → wmPick true state data = data := by
  refine ⟨⟨fun order => (agrees_iff ts).mp order.compares,
    fun separated => oneOrder_of_agrees ((agrees_iff ts).mpr separated)⟩, ?_, ?_, ?_, ?_⟩
  · intro a
    cases a with
    | none => rfl
    | some a => exact congrArg some (ite_self a)
  · intro a b missing readable
    obtain ⟨y, read⟩ := Option.ne_none_iff_exists'.mp readable
    rw [wmMax, wmMax, xWins_unreadable (Or.inl missing), xWins_unreadable (Or.inr missing), beats,
      beats, missing, read]
    exact ⟨rfl, rfl⟩
  · exact fun state data => wmPick_eq
  · exact fun state data => wmPick_unreadable

/-- Doubles merge `2 ^ 53 + 1` with `2 ^ 53`: an exponent form of the one is equal to
both plain texts, which differ. The word for infinity wins against a number, and of two
texts that are no numbers a pick takes the data one, not the larger one. -/
theorem order_breaks :
    cmpNumericText "9007199254740993".toList "9007199254740992e0".toList = some .eq ∧
      cmpNumericText "9007199254740992e0".toList "9007199254740992".toList = some .eq ∧
      cmpNumericText "9007199254740993".toList "9007199254740992".toList = some .gt ∧
      wmMax (some "inf".toList) (some "5".toList) true = some "inf".toList ∧
      wmPick true "b".toList "a".toList = "a".toList ∧
      wmMax (some "b".toList) (some "a".toList) true = some "b".toList := by
  decide +kernel

end Apitap.Plan
