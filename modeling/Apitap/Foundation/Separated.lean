import Mathlib.Data.List.Basic

/-!
# Separated text

A text cut at every separator, where a mark takes the symbol behind it along, so that a
separator behind a mark does not count. A piece that passes stays whole wherever it stands. Pieces
written with a separator wherever something stands before are the pieces with a separator
between two, but for an empty one at the front.
-/

namespace Apitap.Foundation

namespace Separated

variable {α : Type} {mark sep : α}

/-! ## Pieces written one by one -/

/-- Pieces written one after another, a separator wherever something stands before. -/
def joined (sep : α) (out : List α) : List (List α) → List α
  | [] => out
  | piece :: pieces => joined sep ((if out ≠ [] then out ++ [sep] else out) ++ piece) pieces

/-- An empty piece comes first and another follows. -/
def LeadsEmpty (pieces : List (List α)) : Prop := pieces.head? = some [] ∧ 2 ≤ pieces.length

instance [DecidableEq α] (pieces : List (List α)) : Decidable (LeadsEmpty pieces) :=
  inferInstanceAs (Decidable (_ ∧ _))

theorem joined_of_ne {out : List α} (some_ : out ≠ []) (pieces : List (List α)) :
    joined sep out pieces = out ++ pieces.flatMap (sep :: ·) := by
  induction pieces generalizing out with
  | nil => rw [joined, List.flatMap_nil, List.append_nil]
  | cons piece pieces ih =>
      rw [joined, if_pos some_, ih (by simp), List.flatMap_cons, List.append_assoc,
        List.append_assoc, List.singleton_append, List.cons_append]

theorem intercalate_cons (piece : List α) (pieces : List (List α)) :
    [sep].intercalate (piece :: pieces) = piece ++ pieces.flatMap (sep :: ·) := by
  induction pieces generalizing piece with
  | nil => simp [List.intercalate]
  | cons next pieces ih =>
      rw [List.intercalate_cons_cons, ih, List.flatMap_cons, List.append_assoc,
        List.singleton_append, List.cons_append]

theorem joined_cons {piece : List α} (some_ : piece ≠ []) (pieces : List (List α)) :
    joined sep [] (piece :: pieces) = [sep].intercalate (piece :: pieces) := by
  rw [joined, if_neg (not_not.mpr rfl), List.nil_append, joined_of_ne some_, intercalate_cons]

theorem joined_length_le (sep : α) (pieces : List (List α)) :
    (joined sep [] pieces).length ≤ ([sep].intercalate pieces).length := by
  induction pieces with
  | nil => simp [joined]
  | cons piece pieces ih =>
      by_cases empty : piece = []
      · rw [intercalate_cons, empty]
        cases pieces with
        | nil => simp [joined]
        | cons next pieces =>
            have rest : (joined sep [] (next :: pieces)).length ≤ _ := ih
            rw [intercalate_cons] at rest
            have skip : joined sep [] ([] :: next :: pieces) = joined sep [] (next :: pieces) := rfl
            rw [skip, List.flatMap_cons]
            simp only [List.nil_append, List.cons_append, List.length_cons]
            omega
      · exact Nat.le_of_eq (congrArg List.length (joined_cons empty pieces))

/-- The separators come out right but behind an empty piece at the front. -/
theorem joined_eq_iff (pieces : List (List α)) :
    joined sep [] pieces = [sep].intercalate pieces ↔ ¬ LeadsEmpty pieces := by
  cases pieces with
  | nil => exact iff_of_true rfl fun leads => nomatch leads.1
  | cons piece pieces =>
      by_cases empty : piece = []
      · cases pieces with
        | nil => exact iff_of_true (by simp [empty, joined]) fun leads => by simpa using leads.2
        | cons next pieces =>
            refine iff_of_false (fun same => ?_) (not_not.mpr ⟨by simp [empty], by simp⟩)
            have le := joined_length_le sep (next :: pieces)
            have skip : joined sep [] ([] :: next :: pieces) = joined sep [] (next :: pieces) := rfl
            rw [empty, skip] at same
            rw [same, intercalate_cons, intercalate_cons, List.flatMap_cons] at le
            simp only [List.nil_append, List.cons_append, List.length_cons] at le
            omega
      · exact iff_of_true (joined_cons empty pieces) fun leads => empty (by simpa using leads.1)

/-! ## Pieces cut apart -/

variable [DecidableEq α]

/-- The pieces of a text; the flag says that the symbol to come belongs to a mark. -/
def cut (mark sep : α) : Bool → List α → List (List α)
  | _, [] => [[]]
  | true, a :: rest => (cut mark sep false rest).modifyHead (a :: ·)
  | false, a :: rest =>
      if a = sep then [] :: cut mark sep false rest
      else (cut mark sep (a = mark) rest).modifyHead (a :: ·)

/-- No cut falls into the text, and none is taken away from what follows. -/
def Passes (mark sep : α) (text : List α) : Prop :=
  ∀ rest, cut mark sep false (text ++ rest) =
    (cut mark sep false rest).modifyHead (text ++ ·)

variable {text u v rest : List α} {pieces : List (List α)}

namespace Passes

theorem nil : Passes mark sep [] := by
  intro rest
  rw [List.nil_append]
  cases cut mark sep false rest with
  | nil => rfl
  | cons p pieces => rfl

theorem plain {a : α} (unmarked : a ≠ mark) (inside : a ≠ sep) : Passes mark sep [a] := by
  intro rest
  have kept : decide (a = mark) = false := decide_eq_false unmarked
  rw [List.cons_append, List.nil_append, cut, if_neg inside, kept]
  rfl

theorem marked (apart : mark ≠ sep) (a : α) : Passes mark sep [mark, a] := by
  intro rest
  have taken : decide (mark = mark) = true := decide_eq_true rfl
  rw [List.cons_append, List.cons_append, List.nil_append, cut, if_neg apart, taken, cut,
    List.modifyHead_modifyHead]
  rfl

theorem append (front : Passes mark sep u) (back : Passes mark sep v) :
    Passes mark sep (u ++ v) := by
  intro rest
  have joined : ((u ++ ·) ∘ (v ++ ·) : List α → List α) = (u ++ v ++ ·) :=
    funext fun t => (List.append_assoc u v t).symm
  rw [List.append_assoc, front, back, List.modifyHead_modifyHead, joined]

theorem flatMap {β : Type} {f : β → List α} {l : List β}
    (each : ∀ b ∈ l, Passes mark sep (f b)) : Passes mark sep (l.flatMap f) := by
  induction l with
  | nil => exact nil
  | cons b l ih =>
      rw [List.flatMap_cons]
      exact (each b List.mem_cons_self).append
        (ih fun c c_mem => each c (List.mem_cons_of_mem _ c_mem))

end Passes

theorem cut_sep (rest : List α) :
    cut mark sep false (sep :: rest) = [] :: cut mark sep false rest := by
  rw [cut, if_pos rfl]

/-- A piece with a separator behind it is the first one cut off. -/
theorem cut_piece (passes : Passes mark sep text) (rest : List α) :
    cut mark sep false (text ++ sep :: rest) = text :: cut mark sep false rest := by
  rw [passes, cut_sep, List.modifyHead_cons, List.append_nil]

theorem cut_alone (passes : Passes mark sep text) : cut mark sep false text = [text] := by
  have whole := passes []
  rw [List.append_nil] at whole
  rw [whole, cut, List.modifyHead_cons, List.append_nil]

/-- Pieces with a separator between two are cut apart again. -/
theorem cut_between (some_piece : pieces ≠ []) (pass : ∀ p ∈ pieces, Passes mark sep p) :
    cut mark sep false ([sep].intercalate pieces) = pieces := by
  induction pieces with
  | nil => exact absurd rfl some_piece
  | cons p pieces ih =>
      have first : Passes mark sep p := pass p List.mem_cons_self
      cases pieces with
      | nil => rw [List.intercalate_singleton, cut_alone first]
      | cons q pieces =>
          have others := ih (List.cons_ne_nil _ _) fun r r_mem =>
            pass r (List.mem_cons_of_mem _ r_mem)
          rw [List.intercalate_cons_cons, List.append_assoc, List.singleton_append,
            cut_piece first, others]

/-- Pieces with a separator behind each are cut apart again, with nothing left at the end. -/
theorem cut_behind (pass : ∀ p ∈ pieces, Passes mark sep p) :
    cut mark sep false (pieces.flatMap (· ++ [sep])) = pieces ++ [[]] := by
  induction pieces with
  | nil => rfl
  | cons p pieces ih =>
      rw [List.flatMap_cons, List.append_assoc, List.singleton_append,
        cut_piece (pass p List.mem_cons_self),
        ih fun r r_mem => pass r (List.mem_cons_of_mem _ r_mem)]
      rfl

end Separated

end Apitap.Foundation
