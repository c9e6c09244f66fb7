import Apitap.Foundation.Framing

/-!
# Items up to where they stop

What a format makes of a word at once, with the items before a refusal: all of them, and what
stopped it. A reader that takes the items one by one from a window and refills it in between
delivers the same.
-/

namespace Apitap.Foundation

namespace Format

variable {ε α β : Type} (F : Format ε α β)

def upTo : Nat → List α → List β × Except ε (List α × Bool)
  | 0, b => ([], .ok (b, false))
  | fuel + 1, b =>
      match F.item b with
      | .error e => ([], .error e)
      | .ok none => ([], .ok (b, false))
      | .ok (some (n, none)) => ([], .ok (b.drop n, true))
      | .ok (some (n, some r)) =>
          let rest := upTo fuel (b.drop n)
          (r :: rest.1, rest.2)

/-- The items of a word, and what is left with whether the end came, or the refusal. -/
def all (b : List α) : List β × Except ε (List α × Bool) := F.upTo (b.length + 1) b

variable {F} {b : List α} {n : Nat} {r : β} {e : ε}

theorem upTo_fuel {f g : Nat} (enough : b.length < f) (also : b.length < g) :
    F.upTo f b = F.upTo g b := by
  induction f generalizing g b with
  | zero => exact absurd enough (Nat.not_lt_zero _)
  | succ f ih =>
      cases g with
      | zero => exact absurd also (Nat.not_lt_zero _)
      | succ g =>
          rw [upTo, upTo]
          cases read : F.item b with
          | error e => rfl
          | ok found =>
              rcases found with _ | ⟨n, _ | r⟩
              · rfl
              · rfl
              · have took := F.item_le read
                have less : (b.drop n).length < b.length := by
                  rw [List.length_drop]
                  omega
                have same : F.upTo f (b.drop n) = F.upTo g (b.drop n) :=
                  ih (by omega) (by omega)
                simp only [same]

theorem all_error (read : F.item b = .error e) : F.all b = ([], .error e) := by
  rw [all, upTo, read]

theorem all_none (read : F.item b = .ok none) : F.all b = ([], .ok (b, false)) := by
  rw [all, upTo, read]

theorem all_some (read : F.item b = .ok (some (n, some r))) :
    F.all b = (r :: (F.all (b.drop n)).1, (F.all (b.drop n)).2) := by
  have took := F.item_le read
  have less : (b.drop n).length < b.length := by
    rw [List.length_drop]
    omega
  rw [all, upTo, read, all]
  simp only
  rw [upTo_fuel less (Nat.lt_succ_self _)]

end Format

end Apitap.Foundation
