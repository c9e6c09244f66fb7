import Mathlib.Algebra.Order.Group.Int
import Mathlib.Data.List.Chain

/-!
# Tilings of an integer range

Ranges that lie one after another from one end of a range to the other. With its outer
edges open, a tiling says of every integer which tile it belongs to, and it says it
once.
-/

namespace Apitap.Foundation

/-- Ranges that lie one after another, from a number up to `b`. -/
inductive Tiles (b : Int) : Int → List (Int × Int) → Prop
  | last {a : Int} (le : a ≤ b) : Tiles b a [(a, b)]
  | cons {a e : Int} {rest : List (Int × Int)} (le : a ≤ e) (lt : e < b)
      (tail : Tiles b (e + 1) rest) : Tiles b a ((a, e) :: rest)

/-- The elements of a list, each with whether it is the first and whether the last. -/
def edged {α : Type} : Bool → List α → List (α × Bool × Bool)
  | _, [] => []
  | first, [r] => [(r, first, true)]
  | first, r :: r' :: rest => (r, first, false) :: edged false (r' :: rest)

theorem edged_cons {α : Type} {first : Bool} {r : α} {rest : List α} (nonempty : rest ≠ []) :
    edged first (r :: rest) = (r, first, false) :: edged false rest := by
  cases rest with
  | nil => exact absurd rfl nonempty
  | cons r' rest => rfl

private theorem map_zipIdx_edged {α : Type} (rs : List α) (k : Nat) :
    ((rs.zipIdx k).map fun r =>
      (r.1, decide (r.2 = 0), decide (r.2 = k + rs.length - 1))) =
      edged (decide (k = 0)) rs := by
  induction rs generalizing k with
  | nil => rfl
  | cons r rest ih =>
      cases rest with
      | nil => simp [edged]
      | cons r' rest =>
          have next := ih (k + 1)
          rw [List.zipIdx_cons, List.map_cons, edged_cons (List.cons_ne_nil _ _)]
          have same : k + (r :: r' :: rest).length - 1 = k + 1 + (r' :: rest).length - 1 := by
            simp only [List.length_cons]
            omega
          rw [same, next]
          have inner : decide (k + 1 = 0) = false := by simp
          have notLast : decide (k = k + 1 + (r' :: rest).length - 1) = false := by
            simp only [List.length_cons, decide_eq_false_iff_not]
            omega
          rw [inner, notLast]

/-- The first index is the first element's, and the last the last one's. -/
theorem edged_eq_zipIdx {α : Type} (rs : List α) :
    edged true rs =
      rs.zipIdx.map fun r => (r.1, decide (r.2 = 0), decide (r.2 = rs.length - 1)) := by
  have flags := map_zipIdx_edged rs 0
  rw [Nat.zero_add] at flags
  exact flags.symm

/-- Only the last element is the last. -/
theorem countP_last {α : Type} {rs : List α} (nonempty : rs ≠ []) (first : Bool) :
    (edged first rs).countP (fun r => r.2.2) = 1 := by
  induction rs generalizing first with
  | nil => exact absurd rfl nonempty
  | cons r rest ih =>
      cases rest with
      | nil => rfl
      | cons r' rest =>
          rw [edged_cons (List.cons_ne_nil _ _), List.countP_cons_of_neg (by simp)]
          exact ih (List.cons_ne_nil _ _) false

/-- The last element, and before it none that is the last. -/
theorem edged_eq_append {α : Type} {rs : List α} (nonempty : rs ≠ []) (first : Bool) :
    ∃ inner last, edged first rs = inner ++ [last] ∧ ∀ r ∈ inner, r.2.2 = false := by
  induction rs generalizing first with
  | nil => exact absurd rfl nonempty
  | cons r rest ih =>
      cases rest with
      | nil => exact ⟨[], _, rfl, nofun⟩
      | cons r' rest =>
          obtain ⟨inner, last, split, flags⟩ := ih (List.cons_ne_nil _ _) false
          refine ⟨(r, first, false) :: inner, last, ?_, fun x mem => ?_⟩
          · rw [edged_cons (List.cons_ne_nil _ _), split, List.cons_append]
          · obtain rfl | mem := List.mem_cons.mp mem
            · rfl
            · exact flags x mem

theorem mem_of_mem_edged {α : Type} {first : Bool} {rs : List α} {r : α × Bool × Bool}
    (mem : r ∈ edged first rs) : r.1 ∈ rs := by
  induction rs generalizing first with
  | nil => nomatch mem
  | cons r' rest ih =>
      cases rest with
      | nil =>
          cases List.mem_singleton.mp mem
          exact .head _
      | cons r'' rest =>
          rw [edged_cons (List.cons_ne_nil _ _)] at mem
          cases List.mem_cons.mp mem with
          | inl here =>
              cases here
              exact .head _
          | inr mem => exact .tail _ (ih mem)

theorem edged_map {α β : Type} (f : α → β) (first : Bool) (rs : List α) :
    edged first (rs.map f) = (edged first rs).map fun r => (f r.1, r.2) := by
  induction rs generalizing first with
  | nil => rfl
  | cons r rest ih =>
      cases rest with
      | nil => rfl
      | cons r' rest =>
          have nonempty : (r' :: rest).map f ≠ [] := List.cons_ne_nil _ _
          change edged first (f r :: (r' :: rest).map f) = _
          rw [edged_cons nonempty, ih, edged_cons (List.cons_ne_nil _ _), List.map_cons]

namespace Tiles

variable {a b : Int} {rs : List (Int × Int)}

theorem ne_nil (tiles : Tiles b a rs) : rs ≠ [] := by
  cases tiles with
  | last => exact List.cons_ne_nil _ _
  | cons => exact List.cons_ne_nil _ _

theorem le (tiles : Tiles b a rs) : a ≤ b := by
  cases tiles with
  | last le => exact le
  | cons le lt _ => exact le.trans lt.le

/-- Every tile is non-empty and within the range. -/
theorem bounds (tiles : Tiles b a rs) {r : Int × Int} (mem : r ∈ rs) :
    a ≤ r.1 ∧ r.1 ≤ r.2 ∧ r.2 ≤ b := by
  induction tiles with
  | last le =>
      cases List.mem_singleton.mp mem
      exact ⟨le_rfl, le, le_rfl⟩
  | cons le lt tail ih =>
      cases List.mem_cons.mp mem with
      | inl here =>
          cases here
          exact ⟨le_rfl, le, lt.le⟩
      | inr mem =>
          obtain ⟨after, inner, before⟩ := ih mem
          exact ⟨by omega, inner, before⟩

theorem head (tiles : Tiles b a rs) : rs.head?.map Prod.fst = some a := by
  cases tiles with
  | last => rfl
  | cons => rfl

theorem getLast (tiles : Tiles b a rs) : rs.getLast?.map Prod.snd = some b := by
  induction tiles with
  | last => rfl
  | cons le lt tail ih =>
      rw [List.getLast?_cons_of_ne_nil tail.ne_nil]
      exact ih

/-- Each tile begins right after the one before it. -/
theorem adjacent (tiles : Tiles b a rs) : rs.IsChain fun r r' => r.2 + 1 = r'.1 := by
  induction tiles with
  | last => exact List.isChain_singleton _
  | cons le lt tail ih =>
      cases tail with
      | last => exact ih.cons_cons rfl
      | cons => exact ih.cons_cons rfl

/-- The tiles' union is the range. -/
theorem mem_iff (tiles : Tiles b a rs) (x : Int) :
    (∃ r ∈ rs, r.1 ≤ x ∧ x ≤ r.2) ↔ a ≤ x ∧ x ≤ b := by
  constructor
  · rintro ⟨r, mem, low, high⟩
    obtain ⟨after, -, before⟩ := tiles.bounds mem
    exact ⟨after.trans low, high.trans before⟩
  · rintro ⟨low, high⟩
    induction tiles with
    | last le => exact ⟨_, .head _, low, high⟩
    | @cons a e rest le lt tail ih =>
        by_cases here : x ≤ e
        · exact ⟨_, .head _, low, here⟩
        · obtain ⟨r, mem, inside⟩ := ih (by omega)
          exact ⟨r, .tail _ mem, inside⟩

/-- A number lies in one tile, the last one open and the first one open or not. -/
theorem countP_open (tiles : Tiles b a rs) (loose first : Bool) (x : Int) :
    (edged first rs).countP (fun r =>
      (loose && r.2.1 || decide (r.1.1 ≤ x)) && (r.2.2 || decide (x ≤ r.1.2))) =
      if (loose && first) = true ∨ a ≤ x then 1 else 0 := by
  induction tiles generalizing first with
  | last le =>
      cases first <;> cases loose <;> simp [edged, List.countP_cons]
  | @cons a e rest le lt tail ih =>
      rw [edged_cons tail.ne_nil, List.countP_cons, ih, Bool.and_false]
      by_cases here : x ≤ e
      · have notLater : ¬(false = true ∨ e + 1 ≤ x) := by
          rintro (impossible | later)
          · nomatch impossible
          · omega
        rw [if_neg notLater, Nat.zero_add]
        simp [here]
      · have later : false = true ∨ e + 1 ≤ x := .inr (by omega)
        have low : (loose && first) = true ∨ a ≤ x := .inr (by omega)
        have apart : ((loose && first || decide (a ≤ x)) && (false || decide (x ≤ e))) = false := by
          simp [here]
        rw [if_pos later, if_pos low, apart]
        rfl

end Tiles

end Apitap.Foundation
