import Apitap.Foundation.Results

/-!
# Framed input

A format reads a header and then one item after another from the front of a word, up to an
end mark. It says that a word is too short, or refuses it, or takes so many symbols, and what
it says of a word it says of every longer one unless it asked for more. A reader that keeps
what is left over absorbs a word in pieces as it does at once.
-/

namespace Apitap.Foundation

/-- Readers of a header and of an item or the end; what they decide stands for longer words. -/
structure Format (ε α β : Type) where
  header : List α → Except ε (Option Nat)
  item : List α → Except ε (Option (Nat × Option β))
  header_nil : header [] = .ok none
  header_le : ∀ {b n}, header b = .ok (some n) → n ≤ b.length
  header_append : ∀ {b n} x, header b = .ok (some n) → header (b ++ x) = .ok (some n)
  header_error : ∀ {b e} x, header b = .error e → header (b ++ x) = .error e
  item_nil : item [] = .ok none
  item_le : ∀ {b n r}, item b = .ok (some (n, r)) → 0 < n ∧ n ≤ b.length
  item_append : ∀ {b n r} x, item b = .ok (some (n, r)) → item (b ++ x) = .ok (some (n, r))
  item_error : ∀ {b e} x, item b = .error e → item (b ++ x) = .error e

namespace Format

variable {ε α β : Type} (F : Format ε α β)

/-- Items as long as there are whole ones: their values, what is left, whether the end came. -/
def items : Nat → List α → Except ε (List β × List α × Bool)
  | 0, b => .ok ([], b, false)
  | fuel + 1, b =>
      match F.item b with
      | .error e => .error e
      | .ok none => .ok ([], b, false)
      | .ok (some (n, none)) => .ok ([], b.drop n, true)
      | .ok (some (n, some r)) =>
          (items fuel (b.drop n)).map fun (rs, rest, fin) => (r :: rs, rest, fin)

/-- Each item takes a symbol at least. -/
def parse (b : List α) : Except ε (List β × List α × Bool) := F.items (b.length + 1) b

variable {F} {b x y p : List α} {n : Nat} {r : β} {e : ε}

theorem items_fuel {f g : Nat} (enough : b.length < f) (also : b.length < g) :
    F.items f b = F.items g b := by
  induction f generalizing g b with
  | zero => exact absurd enough (Nat.not_lt_zero _)
  | succ f ih =>
      cases g with
      | zero => exact absurd also (Nat.not_lt_zero _)
      | succ g =>
          rw [items, items]
          cases read : F.item b with
          | error e => rfl
          | ok found =>
              match found, read with
              | none, _ => rfl
              | some (n, none), _ => rfl
              | some (n, some r), read =>
                  have took := F.item_le read
                  have less : (b.drop n).length < b.length := by
                    rw [List.length_drop]
                    omega
                  simp only
                  rw [ih (g := g) (by omega) (by omega)]

theorem parse_error (read : F.item b = .error e) : F.parse b = .error e := by
  rw [parse, items, read]

theorem parse_none (read : F.item b = .ok none) : F.parse b = .ok ([], b, false) := by
  rw [parse, items, read]

theorem parse_end (read : F.item b = .ok (some (n, none))) :
    F.parse b = .ok ([], b.drop n, true) := by
  rw [parse, items, read]

theorem parse_some (read : F.item b = .ok (some (n, some r))) :
    F.parse b = (F.parse (b.drop n)).map fun (rs, rest, fin) => (r :: rs, rest, fin) := by
  have took := F.item_le read
  have less : (b.drop n).length < b.length := by
    rw [List.length_drop]
    omega
  rw [parse, items, read, parse]
  simp only
  rw [items_fuel less (Nat.lt_succ_self _)]

/-- Items of a longer word: those of the front, and those of what it left and the rest. -/
theorem parse_append (b x : List α) :
    F.parse (b ++ x) = (F.parse b).bind fun (rs, rest, fin) =>
      if fin then .ok (rs, rest ++ x, true)
      else (F.parse (rest ++ x)).map fun (more, last, fin) => (rs ++ more, last, fin) := by
  induction len : b.length using Nat.strongRecOn generalizing b with
  | _ len' ih =>
      subst len
      cases read : F.item b with
      | error e =>
          rw [parse_error read, parse_error (F.item_error x read)]
          rfl
      | ok found =>
          match found, read with
          | none, read =>
              rw [parse_none read]
              simp only [Except.bind, Bool.false_eq_true, if_false, List.nil_append]
              cases F.parse (b ++ x) <;> rfl
          | some (n, none), read =>
              have took := F.item_le read
              rw [parse_end read, parse_end (F.item_append x read),
                List.drop_append_of_le_length took.2]
              rfl
          | some (n, some r), read =>
              have took := F.item_le read
              have less : (b.drop n).length < b.length := by
                rw [List.length_drop]
                omega
              rw [parse_some read, parse_some (F.item_append x read),
                List.drop_append_of_le_length took.2, ih _ less (b.drop n) rfl]
              cases F.parse (b.drop n) with
              | error e => rfl
              | ok got =>
                  obtain ⟨rs, rest, fin⟩ := got
                  cases fin with
                  | true => rfl
                  | false =>
                      simp only [Except.bind, Except.map, Bool.false_eq_true, if_false]
                      cases F.parse (rest ++ x) <;> rfl

/-! ## Items as written -/

/-- A word is too short where a longer one is just an item. -/
theorem item_front {w : List α} {r : Option β} (whole : F.item w = .ok (some (w.length, r)))
    (front : p <+: w) (strict : p ≠ w) : F.item p = .ok none := by
  obtain ⟨x, rfl⟩ := front
  have some : x ≠ [] := fun none => strict (by rw [none, List.append_nil])
  cases read : F.item p with
  | error e =>
      rw [F.item_error x read] at whole
      cases whole
  | ok found =>
      cases found with
      | none => rfl
      | some got =>
          obtain ⟨n, r'⟩ := got
          have le := (F.item_le read).2
          rw [F.item_append x read] at whole
          obtain ⟨same, -⟩ := Prod.mk.inj (Option.some.inj (Except.ok.inj whole))
          rw [List.length_append] at same
          have positive := List.length_pos_of_ne_nil some
          omega

/-- How items and the end are written: an item's word is read as its value, or refused. -/
structure Writes {γ : Type} (F : Format ε α β) (write : γ → List α)
    (value : γ → Except ε β) (stop : List α) : Prop where
  item : ∀ g x, F.item (write g ++ x) = (value g).map fun r => some ((write g).length, some r)
  stop : F.item stop = .ok (some (stop.length, none))

variable {γ : Type} {write : γ → List α} {value : γ → Except ε β} {stop : List α}

/-- All of them written are read in order, each once, up to the end. -/
theorem parse_written (writes : Writes F write value stop) (gs : List γ) :
    F.parse (gs.flatMap write ++ stop) = (gs.mapM value).map fun rs => (rs, [], true) := by
  induction gs with
  | nil =>
      rw [List.flatMap_nil, List.nil_append, parse_end writes.stop, List.drop_length]
      rfl
  | cons g gs ih =>
      have read := writes.item g (gs.flatMap write ++ stop)
      rw [List.flatMap_cons, List.append_assoc, mapM_cons]
      cases given : value g with
      | error e =>
          rw [given] at read
          rw [parse_error read]
          rfl
      | ok r =>
          rw [given] at read
          rw [parse_some read, List.drop_left, ih]
          simp only [Except.bind]
          cases gs.mapM value <;> rfl

/-- A strict front of them ends before the end. -/
theorem parse_front (writes : Writes F write value stop) {gs : List γ} {rs : List β}
    (given : gs.mapM value = .ok rs) (front : p <+: gs.flatMap write ++ stop)
    (strict : p ≠ gs.flatMap write ++ stop) :
    ∃ k rest, F.parse p = .ok (rs.take k, rest, false) := by
  induction gs generalizing p rs with
  | nil => exact ⟨0, p, parse_none (item_front writes.stop front strict)⟩
  | cons g gs ih =>
      obtain ⟨r, later, is, rest_is, rfl⟩ := mapM_cons_ok.mp given
      rw [List.flatMap_cons, List.append_assoc] at front strict
      have alone := writes.item g []
      rw [List.append_nil, is] at alone
      rcases Nat.lt_or_ge p.length (write g).length with short | long
      · have within : p <+: write g :=
          List.prefix_of_prefix_length_le front (List.prefix_append _ _) (Nat.le_of_lt short)
        have less : p ≠ write g := fun same => by
          rw [same] at short
          exact absurd short (Nat.lt_irrefl _)
        exact ⟨0, p, parse_none (item_front alone within less)⟩
      · obtain ⟨q, rfl⟩ : write g <+: p :=
          List.prefix_of_prefix_length_le (List.prefix_append _ _) front long
        have read := writes.item g q
        rw [is] at read
        obtain ⟨k, rest, got⟩ := ih rest_is ((List.prefix_append_right_inj _).mp front)
          fun same => strict (by rw [same])
        refine ⟨k + 1, rest, ?_⟩
        rw [parse_some read, List.drop_left, got]
        rfl

end Format

/-- What a reader holds: the symbols it has not used, whether header and end came, the items
read so far. -/
structure Reader (α β : Type) where
  pending : List α
  headed : Bool
  finished : Bool
  out : List β

namespace Reader

variable {ε α β : Type} {F : Format ε α β} {s : Reader α β} {x y : List α}

def new : Reader α β := ⟨[], false, false, []⟩

/-- The items of a word taken in; nothing is kept past the end. -/
def take (F : Format ε α β) (s : Reader α β) (b : List α) : Except ε (Reader α β) :=
  (F.parse b).map fun (rs, rest, fin) => ⟨if fin then [] else rest, true, fin, s.out ++ rs⟩

/-- More input. -/
def absorb (F : Format ε α β) (s : Reader α β) (x : List α) : Except ε (Reader α β) :=
  if s.finished then .ok s
  else if s.headed then s.take F (s.pending ++ x)
  else
    match F.header (s.pending ++ x) with
    | .error e => .error e
    | .ok none => .ok { s with pending := s.pending ++ x }
    | .ok (some n) => s.take F ((s.pending ++ x).drop n)

/-- Taking a word in two. -/
theorem take_append (s : Reader α β) (b y : List α) :
    (s.take F b).bind (absorb F · y) = s.take F (b ++ y) := by
  rw [take, take, Format.parse_append]
  cases F.parse b with
  | error e => rfl
  | ok got =>
      obtain ⟨rs, rest, fin⟩ := got
      cases fin with
      | true => rfl
      | false =>
          simp only [Except.map, Except.bind, absorb, take, Bool.false_eq_true, if_false, if_true]
          cases F.parse (rest ++ y) with
          | error e => rfl
          | ok more => simp only [List.append_assoc]

/-- Input in two pieces is taken as in one. -/
theorem absorb_append (s : Reader α β) (x y : List α) :
    (s.absorb F x).bind (absorb F · y) = s.absorb F (x ++ y) := by
  by_cases done : s.finished = true
  · simp only [absorb, done, if_true, Except.bind]
  · by_cases headed : s.headed = true
    · simp only [absorb.eq_1 F s, done, headed, if_true, Bool.false_eq_true, if_false]
      rw [take_append, List.append_assoc]
    · simp only [absorb.eq_1 F s, done, headed, Bool.false_eq_true, if_false]
      rw [← List.append_assoc]
      cases read : F.header (s.pending ++ x) with
      | error e =>
          rw [F.header_error y read]
          rfl
      | ok found =>
          cases found with
          | none => simp only [Except.bind, absorb, take, Bool.false_eq_true, if_false]
          | some n =>
              simp only [F.header_append y read, take_append,
                List.drop_append_of_le_length (F.header_le read)]

/-- Nothing waits to be read. -/
def Settled (F : Format ε α β) (s : Reader α β) : Prop := s.absorb F [] = .ok s

theorem settled_new : Settled F (new : Reader α β) := by
  simp [Settled, absorb, new, F.header_nil]

theorem Settled.absorb {s' : Reader α β} (reads : s.absorb F x = .ok s') : Settled F s' := by
  have twice := absorb_append (F := F) s x []
  rw [reads, List.append_nil, reads] at twice
  exact twice

/-- Input in any number of pieces. -/
def absorbAll (F : Format ε α β) (s : Reader α β) : List (List α) → Except ε (Reader α β)
  | [] => .ok s
  | c :: cs => (s.absorb F c).bind fun s => absorbAll F s cs

theorem absorbAll_eq (settled : Settled F s) (cs : List (List α)) :
    absorbAll F s cs = s.absorb F cs.flatten := by
  induction cs generalizing s with
  | nil => exact settled.symm
  | cons c cs ih =>
      rw [absorbAll, List.flatten_cons, ← absorb_append]
      cases reads : s.absorb F c with
      | error e => rfl
      | ok s' => exact ih (.absorb reads)

/-! ## Whole inputs -/

variable {γ : Type} {write : γ → List α} {value : γ → Except ε β} {stop h p : List α}

/-- A header, items and the end are read whole. -/
theorem absorb_written (writes : F.Writes write value stop)
    (header : F.header h = .ok (some h.length)) (gs : List γ) :
    new.absorb F (h ++ (gs.flatMap write ++ stop)) =
      (gs.mapM value).map fun rs => ⟨[], true, true, rs⟩ := by
  have start := F.header_append (gs.flatMap write ++ stop) header
  simp only [absorb, new, List.nil_append, start, take, List.drop_left, Bool.false_eq_true,
    if_false, Format.parse_written writes]
  cases gs.mapM value <;> rfl

/-- A strict front of them is taken, and not as the end. -/
theorem absorb_front (writes : F.Writes write value stop)
    (header : F.header h = .ok (some h.length)) {gs : List γ} {rs : List β}
    (given : gs.mapM value = .ok rs) (front : p <+: h ++ (gs.flatMap write ++ stop))
    (strict : p ≠ h ++ (gs.flatMap write ++ stop)) :
    ∃ k s, new.absorb F p = .ok s ∧ s.finished = false ∧ s.out = rs.take k := by
  rcases Nat.lt_or_ge p.length h.length with short | long
  · obtain ⟨x, whole⟩ : p <+: h :=
      List.prefix_of_prefix_length_le front (List.prefix_append _ _) (Nat.le_of_lt short)
    have open_ : F.header p = .ok none := by
      cases read : F.header p with
      | error e =>
          rw [← whole, F.header_error x read] at header
          cases header
      | ok found =>
          cases found with
          | none => rfl
          | some n =>
              have le := F.header_le read
              rw [← whole, F.header_append x read, whole] at header
              have same := Option.some.inj (Except.ok.inj header)
              omega
    have kept : new.absorb F p = .ok ⟨p, false, false, []⟩ := by
      simp only [absorb, new, List.nil_append, open_, Bool.false_eq_true, if_false]
    exact ⟨0, _, kept, rfl, rfl⟩
  · obtain ⟨q, rfl⟩ : h <+: p :=
      List.prefix_of_prefix_length_le (List.prefix_append _ _) front long
    have later := (List.prefix_append_right_inj _).mp front
    obtain ⟨k, rest, got⟩ := Format.parse_front writes given later fun same =>
      strict (by rw [same])
    have start := F.header_append q header
    have taken : new.absorb F (h ++ q) = .ok ⟨rest, true, false, rs.take k⟩ := by
      simp only [absorb, new, List.nil_append, start, take, List.drop_left, got,
        Bool.false_eq_true, if_false]
      rfl
    exact ⟨k, _, taken, rfl, rfl⟩

end Reader

end Apitap.Foundation
