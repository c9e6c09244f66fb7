import Mathlib.Data.List.Basic

/-!
# The best of many

Items are known by their texts, and of two texts the better one is kept. Where the texts of
the items are in one total order, keeping the better one again and again, in any nesting,
leaves the text of an item that no other beats.
-/

namespace Apitap.Foundation.Champion

variable {α τ : Type}

/-- The better of two texts, the only one of one. -/
def keepBest (wins : τ → τ → Bool) : Option τ → Option τ → Option τ
  | some x, some y => some (if wins x y then x else y)
  | a, none => a
  | none, b => b

/-- The texts of items are in one order. -/
structure RankedBy (wins : τ → τ → Bool) (text : α → τ) : Prop where
  trans : ∀ a b c, wins (text a) (text b) = true → wins (text b) (text c) = true →
    wins (text a) (text c) = true
  total : ∀ a b, wins (text a) (text b) = false → wins (text b) (text a) = true

/-- No text of no items, or the text of one that no other beats. -/
structure Best (wins : τ → τ → Bool) (text : α → τ) (l : List α) (o : Option τ) : Prop where
  nothing : o = none → l = []
  something : ∀ t, o = some t → ∃ a ∈ l, text a = t ∧ ∀ b ∈ l, wins (text a) (text b) = true

variable {wins : τ → τ → Bool} {text : α → τ} {l m : List α} {o o' : Option τ}

theorem best_nil : Best wins text ([] : List α) none where
  nothing _ := rfl
  something t no := by cases no

theorem RankedBy.refl (ranked : RankedBy wins text) (a : α) : wins (text a) (text a) = true := by
  cases self : wins (text a) (text a) with
  | true => rfl
  | false => exact self.symm.trans (ranked.total a a self)

theorem best_one (ranked : RankedBy wins text) (a : α) : Best wins text [a] (some (text a)) where
  nothing no := by cases no
  something t is := by
    cases is
    refine ⟨a, List.mem_cons_self, rfl, ?_⟩
    intro b b_mem
    rw [List.mem_singleton.mp b_mem]
    exact ranked.refl a

theorem Best.merge (ranked : RankedBy wins text) (first : Best wins text l o)
    (second : Best wins text m o') : Best wins text (l ++ m) (keepBest wins o o') := by
  cases o with
  | none =>
      obtain rfl : l = [] := first.nothing rfl
      cases o' with
      | none => exact second
      | some y => exact second
  | some x =>
      cases o' with
      | none =>
          obtain rfl : m = [] := second.nothing rfl
          rw [List.append_nil]
          exact first
      | some y =>
          obtain ⟨a, a_mem, rfl, above⟩ := first.something x rfl
          obtain ⟨b, b_mem, rfl, above'⟩ := second.something y rfl
          refine ⟨fun no => (by cases no), ?_⟩
          intro t is
          obtain rfl : (if wins (text a) (text b) then text a else text b) = t :=
            Option.some.inj is
          cases order : wins (text a) (text b) with
          | true =>
              refine ⟨a, List.mem_append_left _ a_mem, (if_pos rfl).symm, ?_⟩
              intro c c_mem
              rcases List.mem_append.mp c_mem with earlier | later
              · exact above c earlier
              · exact ranked.trans a b c order (above' c later)
          | false =>
              refine ⟨b, List.mem_append_right _ b_mem, (if_neg (by decide)).symm, ?_⟩
              intro c c_mem
              rcases List.mem_append.mp c_mem with earlier | later
              · exact ranked.trans b a c (ranked.total a b order) (above c earlier)
              · exact above' c later

/-- The kept text is an item's exactly where no other text beats it, if no two texts beat each
other. -/
theorem Best.eq_some_iff (best : Best wins text l o)
    (antisymm : ∀ a ∈ l, ∀ b ∈ l, wins (text a) (text b) = true → wins (text b) (text a) = true →
      text a = text b) {a : α} (a_mem : a ∈ l) :
    o = some (text a) ↔ ∀ b ∈ l, wins (text a) (text b) = true := by
  constructor
  · intro is
    obtain ⟨c, c_mem, same, above⟩ := best.something _ is
    rw [← same]
    exact above
  · intro above
    cases o with
    | none =>
        rw [best.nothing rfl] at a_mem
        cases a_mem
    | some t =>
        obtain ⟨c, c_mem, rfl, above'⟩ := best.something t rfl
        rw [antisymm c c_mem a a_mem (above' a a_mem) (above c c_mem)]

end Apitap.Foundation.Champion
