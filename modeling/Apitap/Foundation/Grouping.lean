import Mathlib.Algebra.Order.Ring.Nat
import Mathlib.Data.List.Induction
import Mathlib.Data.List.Nodup

/-!
# Grouping and packing

Items added to the group of their key, where a key's first addition makes its group; and
weighted items packed in order into batches bounded in weight and in number, where an item
that is too heavy alone has a batch of its own.
-/

namespace Apitap.Foundation

namespace Grouping

variable {κ α : Type} [DecidableEq κ] {k : κ} {xs : List α}

/-- The items behind those of the key's group, the group made if there is none. -/
def add (k : κ) (xs : List α) : List (κ × List α) → List (κ × List α)
  | [] => [(k, xs)]
  | (j, g) :: groups => if j = k then (j, g ++ xs) :: groups else (j, g) :: add k xs groups

def addAll (adds : List (κ × List α)) (groups : List (κ × List α)) : List (κ × List α) :=
  adds.foldl (fun groups a => add a.1 a.2 groups) groups

/-- The keys in the order of their first addition. -/
def keys (adds : List (κ × List α)) : List κ := (adds.map Prod.fst).eraseDups

/-- Everything added to a key, in order. -/
def collected (adds : List (κ × List α)) (k : κ) : List α :=
  adds.flatMap fun a => if a.1 = k then a.2 else []

variable {adds : List (κ × List α)} {groups : List (κ × List α)}

theorem collected_append (front back : List (κ × List α)) (k : κ) :
    collected (front ++ back) k = collected front k ++ collected back k :=
  List.flatMap_append

theorem mem_keys : k ∈ keys adds ↔ ∃ xs, (k, xs) ∈ adds := by
  simp [keys, List.mem_eraseDups]

theorem keys_concat (adds : List (κ × List α)) (a : κ × List α) :
    keys (adds ++ [a]) = if a.1 ∈ keys adds then keys adds else keys adds ++ [a.1] := by
  have single : [a.1].eraseDups = [a.1] := rfl
  rw [keys, List.map_append, List.eraseDups_append]
  by_cases old : a.1 ∈ adds.map Prod.fst
  · simp [List.removeAll, keys, old]
  · simp [List.removeAll, keys, old, single]

theorem nodup_keys (adds : List (κ × List α)) : (keys adds).Nodup := by
  induction adds using List.reverseRecOn with
  | nil => exact List.nodup_nil
  | append_singleton adds a ih =>
      rw [keys_concat]
      split
      case isTrue old => exact ih
      case isFalse new => exact List.nodup_append.mpr ⟨ih, List.nodup_singleton _, by
        intro j j_mem i i_mem same
        exact new (List.mem_singleton.mp i_mem ▸ same ▸ j_mem)⟩

theorem add_map {ks : List κ} (nodup : ks.Nodup) (f : κ → List α) :
    add k xs (ks.map fun j => (j, f j)) =
      (if k ∈ ks then ks else ks ++ [k]).map
        fun j => (j, (if j ∈ ks then f j else []) ++ if k = j then xs else []) := by
  induction ks with
  | nil => simp [add]
  | cons j ks ih =>
      obtain ⟨fresh, nodup⟩ := List.nodup_cons.mp nodup
      rw [List.map_cons, add]
      by_cases here : j = k
      · subst here
        have others : ∀ i ∈ ks, (i, f i) = (i, (if i ∈ j :: ks then f i else []) ++
            if j = i then xs else []) := by
          intro i i_mem
          have apart : j ≠ i := fun same => fresh (same ▸ i_mem)
          rw [if_pos (List.mem_cons_of_mem _ i_mem), if_neg apart, List.append_nil]
        rw [if_pos rfl, if_pos List.mem_cons_self, List.map_cons, if_pos List.mem_cons_self,
          if_pos rfl, List.map_congr_left others]
      · have apart : k ≠ j := Ne.symm here
        have tail : ∀ i ∈ (if k ∈ ks then ks else ks ++ [k]),
            (i, (if i ∈ ks then f i else []) ++ if k = i then xs else []) =
            (i, (if i ∈ j :: ks then f i else []) ++ if k = i then xs else []) := by
          intro i i_mem
          have other : i ≠ j := by
            rintro rfl
            split at i_mem
            · exact fresh i_mem
            · rcases List.mem_append.mp i_mem with old | new
              · exact fresh old
              · exact here (List.mem_singleton.mp new)
          simp only [List.mem_cons, other, false_or]
        have head : (j, f j) = (j, (if j ∈ j :: ks then f j else []) ++
            if k = j then xs else []) := by
          rw [if_pos List.mem_cons_self, if_neg apart, List.append_nil]
        have ks_eq : (if k ∈ j :: ks then j :: ks else j :: ks ++ [k]) =
            j :: if k ∈ ks then ks else ks ++ [k] := by
          simp only [List.mem_cons, apart, false_or]
          split <;> rfl
        rw [if_neg here, ih nodup, List.map_congr_left tail, ks_eq, List.map_cons, ← head]

/-- Every key has one group, with everything that was added to it. -/
theorem addAll_nil (adds : List (κ × List α)) :
    addAll adds [] = (keys adds).map fun k => (k, collected adds k) := by
  induction adds using List.reverseRecOn with
  | nil => rfl
  | append_singleton adds a ih =>
      have step : addAll (adds ++ [a]) [] = add a.1 a.2 (addAll adds []) := by
        rw [addAll, List.foldl_append]
        rfl
      rw [step, ih, add_map (nodup_keys adds), ← keys_concat]
      apply List.map_congr_left
      intro j j_mem
      have last : collected [a] j = if a.1 = j then a.2 else [] := by simp [collected]
      rw [collected_append, last]
      by_cases old : j ∈ keys adds
      · rw [if_pos old]
      · have none : collected adds j = [] := by
          rw [collected, List.flatMap_eq_nil_iff]
          intro b b_mem
          have apart : b.1 ≠ j := by
            rintro rfl
            exact old (mem_keys.mpr ⟨b.2, b_mem⟩)
          exact if_neg apart
        rw [if_neg old, none]

theorem collected_ne_nil (mem : (k, xs) ∈ adds) (some_item : xs ≠ []) :
    collected adds k ≠ [] := by
  intro none
  rw [collected, List.flatMap_eq_nil_iff] at none
  have own := none (k, xs) mem
  rw [if_pos rfl] at own
  exact some_item own

theorem add_perm (k : κ) (xs : List α) (groups : List (κ × List α)) :
    ((add k xs groups).flatMap Prod.snd).Perm (groups.flatMap Prod.snd ++ xs) := by
  induction groups with
  | nil => simp [add]
  | cons g groups ih =>
      rw [add]
      split
      · rw [List.flatMap_cons, List.flatMap_cons, List.append_assoc, List.append_assoc]
        exact (List.perm_append_comm).append_left g.2
      · rw [List.flatMap_cons, List.flatMap_cons, List.append_assoc]
        exact ih.append_left g.2

/-- No item is lost or made twice. -/
theorem addAll_perm (adds groups : List (κ × List α)) :
    ((addAll adds groups).flatMap Prod.snd).Perm
      (groups.flatMap Prod.snd ++ adds.flatMap Prod.snd) := by
  induction adds generalizing groups with
  | nil => simp [addAll]
  | cons a adds ih =>
      have rest := (ih (add a.1 a.2 groups)).trans ((add_perm a.1 a.2 groups).append_right _)
      rwa [List.append_assoc, ← List.flatMap_cons] at rest

end Grouping

namespace Packing

variable {α : Type} (weight : α → Nat) (limit cap : Nat)

def total (batch : List α) : Nat := (batch.map weight).sum

/-- Batches of items in order, the open one closed before an item it has no room for. -/
def pack : List α → List α → List (List α)
  | [], batch => if batch = [] then [] else [batch]
  | a :: items, batch =>
      if (limit < total weight batch + weight a ∨ cap ≤ batch.length) ∧ batch ≠ [] then
        batch :: pack items [a]
      else pack items (batch ++ [a])

variable {weight limit cap}

/-- A batch is no larger than the cap, and heavier than the limit only with one item. -/
structure Fits (weight : α → Nat) (limit cap : Nat) (batch : List α) : Prop where
  some_item : batch ≠ []
  length_le : batch.length ≤ cap
  total_le : total weight batch ≤ limit ∨ ∃ a, batch = [a]

theorem pack_flatten (items batch : List α) :
    (pack weight limit cap items batch).flatten = batch ++ items := by
  induction items generalizing batch with
  | nil =>
      rw [pack]
      split
      case isTrue empty => simp [empty]
      case isFalse open_ => simp
  | cons a items ih =>
      rw [pack]
      split
      · rw [List.flatten_cons, ih, List.singleton_append]
      · rw [ih, List.append_assoc, List.singleton_append]

theorem pack_fits (room : 1 ≤ cap) (items : List α) {batch : List α}
    (open_ : batch = [] ∨ Fits weight limit cap batch) :
    ∀ b ∈ pack weight limit cap items batch, Fits weight limit cap b := by
  have alone : ∀ a : α, Fits weight limit cap [a] := fun a => ⟨by simp, room, .inr ⟨a, rfl⟩⟩
  induction items generalizing batch with
  | nil =>
      intro b b_mem
      rw [pack] at b_mem
      split at b_mem
      case isTrue empty => cases b_mem
      case isFalse some_item =>
        rw [List.mem_singleton.mp b_mem]
        exact open_.resolve_left some_item
  | cons a items ih =>
      intro b b_mem
      rw [pack] at b_mem
      split at b_mem
      case isTrue full =>
        rcases List.mem_cons.mp b_mem with rfl | later
        · exact open_.resolve_left full.2
        · exact ih (.inr (alone a)) b later
      case isFalse space =>
        apply ih _ b b_mem
        rcases open_ with rfl | fits
        · exact .inr (alone a)
        · have within : total weight batch + weight a ≤ limit ∧ batch.length < cap := by
            have unfilled : ¬ (limit < total weight batch + weight a ∨ cap ≤ batch.length) :=
              fun full => space ⟨full, fits.some_item⟩
            omega
          refine .inr ⟨by simp, ?_, .inl ?_⟩
          · rw [List.length_append, List.length_singleton]
            omega
          · simp only [total, List.map_append, List.sum_append, List.map_cons, List.map_nil,
              List.sum_singleton]
            exact within.1

/-- Packing what items stand for is packing the items by its weight. -/
theorem pack_map {β : Type} (f : β → α) (items batch : List β) :
    pack weight limit cap (items.map f) (batch.map f) =
      (pack (weight ∘ f) limit cap items batch).map (List.map f) := by
  have same : ∀ b : List β, total weight (b.map f) = total (weight ∘ f) b := by
    intro b
    rw [total, total, List.map_map]
  induction items generalizing batch with
  | nil =>
      rw [List.map_nil, pack, pack]
      cases batch with
      | nil => rfl
      | cons b batch => rfl
  | cons a items ih =>
      have none : batch.map f ≠ [] ↔ batch ≠ [] := by simp
      rw [List.map_cons, pack, pack, same, List.length_map, Function.comp_apply]
      by_cases cut : (limit < total (weight ∘ f) batch + weight (f a) ∨ cap ≤ batch.length) ∧
          batch ≠ []
      · have fresh := ih [a]
        rw [if_pos ⟨cut.1, none.mpr cut.2⟩, if_pos cut, List.map_cons]
        rw [List.map_singleton] at fresh
        rw [fresh]
      · have more := ih (batch ++ [a])
        rw [List.map_append, List.map_singleton] at more
        rw [if_neg fun both => cut ⟨both.1, none.mp both.2⟩, if_neg cut, more]

end Packing

end Apitap.Foundation
