import Mathlib.Data.List.Basic

/-!
# Reading a text by position

A reader at a position of a text. A word spells an outcome when the reader that stands before
the whole word has that outcome, and the reader of a text that ends inside the word fails in
one of some given ways. A safe reader never leaves its text and fails only in such ways.
-/

namespace Apitap.Foundation

def Scan (ε α : Type) : Type := List UInt8 → Nat → Except ε (α × Nat)

namespace Scan

variable {ε α β γ δ : Type}

def ret (a : α) : Scan ε α := fun _ pos => .ok (a, pos)

def fail (e : ε) : Scan ε α := fun _ _ => .error e

def andThen (p : Scan ε α) (k : α → Scan ε β) : Scan ε β := fun src pos =>
  (p src pos).bind fun r => k r.1 src r.2

/-- A step that reads nothing. -/
def lift (x : Except ε α) : Scan ε α := fun _ pos => x.map (·, pos)

/-- The whole text. -/
def source : Scan ε (List UInt8) := fun src pos => .ok (src, pos)

/-- Where the reader stands. -/
def position : Scan ε Nat := fun _ pos => .ok (pos, pos)

/-- The next `n` bytes. -/
def take (short : ε) (n : Nat) : Scan ε (List UInt8) := fun src pos =>
  if pos + n ≤ src.length then .ok ((src.drop pos).take n, pos + n) else .error short

/-- Over the next `n` bytes, and where they start. -/
def place (short : ε) (n : Nat) : Scan ε Nat :=
  position.andThen fun start => (take short n).andThen fun _ => ret start

/-- The same reader `n` times. -/
def times (p : Scan ε α) : Nat → Scan ε (List α)
  | 0 => ret []
  | n + 1 => p.andThen fun a => (times p n).andThen fun as => ret (a :: as)

/-! ## Words and outcomes -/

/-- A word at a position. -/
def Stands (src : List UInt8) (pos : Nat) (w : List UInt8) : Prop :=
  ∃ front rest, src = front ++ (w ++ rest) ∧ pos = front.length

/-- A text that ends inside the word at a position. -/
def EndsIn (src : List UInt8) (pos : Nat) (w : List UInt8) : Prop :=
  ∃ front u v, src = front ++ u ∧ pos = front.length ∧ w = u ++ v ∧ v ≠ []

/-- A result up to a relation, and the position behind it. -/
def Outcome (result : Except ε (α × Nat)) (fin : Nat) (rel : α → β → Prop) :
    Except ε β → Prop
  | .ok b => ∃ a, result = .ok (a, fin) ∧ rel a b
  | .error e => result = .error e

variable {S : List UInt8 → Prop} {P : ε → Prop} {p : Scan ε α} {k : α → Scan ε γ}
  {w v src : List UInt8} {pos : Nat} {x : Except ε β} {y : β → Except ε δ}
  {R : List UInt8 → α → β → Prop} {Q : List UInt8 → γ → δ → Prop}

structure Spells (S : List UInt8 → Prop) (P : ε → Prop) (p : Scan ε α) (w : List UInt8)
    (R : List UInt8 → α → β → Prop) (x : Except ε β) : Prop where
  whole : ∀ src pos, S src → Stands src pos w → Outcome (p src pos) (pos + w.length) (R src) x
  cut : ∀ src pos, S src → EndsIn src pos w → ∃ e, p src pos = .error e ∧ P e

theorem Stands.split (stands : Stands src pos (w ++ v)) :
    Stands src pos w ∧ Stands src (pos + w.length) v := by
  obtain ⟨front, rest, rfl, rfl⟩ := stands
  refine ⟨⟨front, v ++ rest, by rw [List.append_assoc], rfl⟩, front ++ w, rest, ?_, ?_⟩
  · rw [List.append_assoc, List.append_assoc]
  · rw [List.length_append]

/-- A text that ends inside two words ends inside the first one or inside the second. -/
theorem EndsIn.split (ends : EndsIn src pos (w ++ v)) :
    EndsIn src pos w ∨ (Stands src pos w ∧ EndsIn src (pos + w.length) v) := by
  obtain ⟨front, u, t, rfl, rfl, same, more⟩ := ends
  rcases List.append_eq_append_iff.mp same with h | h
  · obtain ⟨s, rfl, rfl⟩ := h
    refine .inr ⟨⟨front, s, rfl, rfl⟩, front ++ w, s, t, ?_, ?_, rfl, more⟩
    · rw [List.append_assoc]
    · rw [List.length_append]
  · obtain ⟨s, rfl, rfl⟩ := h
    by_cases exact_ : s = []
    · subst exact_
      refine .inr ⟨⟨front, [], by simp, rfl⟩, front ++ u, [], v, by simp, by simp, rfl, more⟩
    · exact .inl ⟨front, u, s, rfl, rfl, rfl, exact_⟩

theorem Stands.append (first : Stands src pos w) (second : Stands src (pos + w.length) v) :
    Stands src pos (w ++ v) := by
  obtain ⟨front, rest, rfl, rfl⟩ := first
  obtain ⟨before, after, same, len⟩ := second
  rw [← List.append_assoc] at same
  obtain ⟨-, rest_eq⟩ := List.append_inj same (by rw [List.length_append, len])
  exact ⟨front, after, by rw [rest_eq, List.append_assoc], rfl⟩

theorem Stands.length_le (stands : Stands src pos w) : pos + w.length ≤ src.length := by
  obtain ⟨front, rest, rfl, rfl⟩ := stands
  rw [List.length_append, List.length_append]
  omega

theorem Stands.take_drop (stands : Stands src pos w) : (src.drop pos).take w.length = w := by
  obtain ⟨front, rest, rfl, rfl⟩ := stands
  rw [List.drop_left, List.take_left]

theorem EndsIn.length_lt (ends : EndsIn src pos w) : src.length < pos + w.length := by
  obtain ⟨front, u, v, rfl, rfl, rfl, more⟩ := ends
  have positive : 0 < v.length := List.length_pos_iff.mpr more
  rw [List.length_append, List.length_append]
  omega

theorem not_endsIn_nil : ¬ EndsIn src pos [] := by
  rintro ⟨front, u, v, -, -, same, more⟩
  exact more (List.append_eq_nil_iff.mp same.symm).2

theorem spells_ret {a : α} {b : β} (rel : ∀ src, S src → R src a b) :
    Spells S P (ret a) [] R (.ok b) where
  whole src _ inside _ := ⟨a, rfl, rel src inside⟩
  cut _ _ _ ends := absurd ends not_endsIn_nil

theorem spells_fail {e : ε} : Spells S P (fail e : Scan ε α) [] R (.error e) where
  whole _ _ _ _ := rfl
  cut _ _ _ ends := absurd ends not_endsIn_nil

theorem spells_source : Spells S P (source : Scan ε (List UInt8)) []
    (fun src a (_ : Unit) => a = src) (.ok ()) where
  whole src _ _ _ := ⟨src, rfl, rfl⟩
  cut _ _ _ ends := absurd ends not_endsIn_nil

theorem spells_take {short : ε} (wrong : P short) {n : Nat} (len : w.length = n) :
    Spells S P (take short n) w (fun _ a b => a = b) (.ok w) where
  whole src pos _ stands := by
    subst len
    refine ⟨w, ?_, rfl⟩
    rw [take, if_pos stands.length_le, stands.take_drop]
  cut src pos _ ends := by
    subst len
    have past := ends.length_lt
    exact ⟨short, if_neg (by omega), wrong⟩

/-- The place of the next bytes. -/
theorem spells_place {short : ε} (wrong : P short) {n : Nat} (len : w.length = n) :
    Spells S P (place short n) w
      (fun src start b => (src.drop start).take n = b ∧ start + n ≤ src.length) (.ok w) where
  whole src pos _ stands := by
    subst len
    refine ⟨pos, ?_, stands.take_drop, stands.length_le⟩
    simp only [place, andThen, position, take, Except.bind, if_pos stands.length_le, ret]
  cut src pos _ ends := by
    subst len
    have past := ends.length_lt
    have stops : ¬ pos + w.length ≤ src.length := by omega
    refine ⟨short, ?_, wrong⟩
    simp only [place, andThen, position, take, Except.bind, if_neg stops]

/-- Two words one behind the other, the second one read as the first one's value asks. -/
theorem Spells.andThen (first : Spells S P p w R x) (wrong : ∀ e, x = .error e → P e)
    (later : ∀ src a b, S src → x = .ok b → R src a b →
      Spells (fun s => s = src) P (k a) v Q (y b)) :
    Spells S P (p.andThen k) (w ++ v) Q (x.bind y) where
  whole src pos inside stands := by
    obtain ⟨at_w, at_v⟩ := stands.split
    have read := first.whole src pos inside at_w
    cases outcome : x with
    | error e =>
        rw [outcome] at read
        have failed : p src pos = .error e := read
        show (p src pos).bind _ = _
        rw [failed]
        rfl
    | ok b =>
        rw [outcome] at read
        obtain ⟨a, is, rel⟩ := read
        have more := (later src a b inside outcome rel).whole src _ rfl at_v
        rw [List.length_append, ← Nat.add_assoc, Scan.andThen, is]
        exact more
  cut src pos inside ends := by
    rcases ends.split with in_w | in_v
    · obtain ⟨e, failed, bad⟩ := first.cut src pos inside in_w
      refine ⟨e, ?_, bad⟩
      rw [Scan.andThen, failed]
      rfl
    · obtain ⟨at_w, in_v⟩ := in_v
      have read := first.whole src pos inside at_w
      cases outcome : x with
      | error e =>
          rw [outcome] at read
          have failed : p src pos = .error e := read
          refine ⟨e, ?_, wrong e outcome⟩
          rw [Scan.andThen, failed]
          rfl
      | ok b =>
          rw [outcome] at read
          obtain ⟨a, is, rel⟩ := read
          obtain ⟨e, failed, bad⟩ := (later src a b inside outcome rel).cut src _ rfl in_v
          refine ⟨e, ?_, bad⟩
          rw [Scan.andThen, is]
          exact failed

/-- After a first word that is always read. -/
theorem Spells.andThen_ok {b : β} {z : Except ε δ} (first : Spells S P p w R (.ok b))
    (later : ∀ src a, S src → R src a b → Spells (fun s => s = src) P (k a) v Q z) :
    Spells S P (p.andThen k) (w ++ v) Q z := by
  have both : Spells S P (p.andThen k) (w ++ v) Q ((Except.ok b : Except ε β).bind fun _ => z) :=
    first.andThen (fun e is => by cases is) fun src a c inside same rel => by
      cases same
      exact later src a inside rel
  exact both

/-- A last step that reads nothing. -/
theorem Spells.andThen_nil {b : β} {z : Except ε δ} (first : Spells S P p w R (.ok b))
    (later : ∀ src a, S src → R src a b → Spells (fun s => s = src) P (k a) [] Q z) :
    Spells S P (p.andThen k) w Q z := by
  have both := first.andThen_ok later
  rwa [List.append_nil] at both

/-- Fewer texts, and a weaker relation. -/
theorem Spells.mono {T : List UInt8 → Prop} {Q : List UInt8 → α → β → Prop}
    (spells : Spells S P p w R x) (fewer : ∀ src, T src → S src)
    (weaker : ∀ src a b, S src → R src a b → Q src a b) : Spells T P p w Q x where
  whole src pos inside stands := by
    have read := spells.whole src pos (fewer src inside) stands
    cases outcome : x with
    | error e =>
        rw [outcome] at read
        exact read
    | ok b =>
        rw [outcome] at read
        obtain ⟨a, is, rel⟩ := read
        exact ⟨a, is, weaker src a b (fewer src inside) rel⟩
  cut src pos inside ends := spells.cut src pos (fewer src inside) ends

/-- More ways to fail. -/
theorem Spells.loosen {P' : ε → Prop} (spells : Spells S P p w R x) (more : ∀ e, P e → P' e) :
    Spells S P' p w R x where
  whole := spells.whole
  cut src pos inside ends := by
    obtain ⟨e, failed, bad⟩ := spells.cut src pos inside ends
    exact ⟨e, failed, more e bad⟩

/-- A word that is always read as the same value. -/
def Gives (S : List UInt8 → Prop) (P : ε → Prop) (p : Scan ε α) (w : List UInt8) (a : α) : Prop :=
  Spells S P p w (fun _ b c => b = c) (.ok a)

theorem Gives.andThen {a : α} {z : Except ε δ} (first : Gives S P p w a)
    (later : Spells S P (k a) v Q z) : Spells S P (p.andThen k) (w ++ v) Q z :=
  Spells.andThen_ok first fun src b inside same => by
    subst same
    exact later.mono (fun s same => same ▸ inside) fun _ _ _ _ rel => rel

theorem Gives.andThen_nil {a : α} {z : Except ε δ} (first : Gives S P p w a)
    (later : Spells S P (k a) [] Q z) : Spells S P (p.andThen k) w Q z := by
  have both := first.andThen later
  rwa [List.append_nil] at both

theorem gives_ret (a : α) : Gives S P (ret a) [] a := spells_ret fun _ _ => rfl

/-- A value made of what was read. -/
theorem Gives.map {a : α} (first : Gives S P p w a) (f : α → γ) :
    Gives S P (p.andThen fun a => ret (f a)) w (f a) := first.andThen_nil (gives_ret (f a))

/-- Items one after another, each as its own word. -/
theorem gives_times {items : List δ} {word : δ → List UInt8} {value : δ → α}
    (each : ∀ d ∈ items, Gives S P p (word d) (value d)) :
    Gives S P (times p items.length) (items.flatMap word) (items.map value) := by
  induction items with
  | nil => exact gives_ret []
  | cons d items ih =>
      have rest := ih fun c c_mem => each c (List.mem_cons_of_mem _ c_mem)
      exact (each d List.mem_cons_self).andThen (rest.map (value d :: ·))

/-! ## How a reader ends -/

/-- What fails in the first two steps of three fails. -/
theorem andThen_error {q : α → Scan ε γ} {r : α → γ → Scan ε δ} {e : ε}
    (failed : (p.andThen q) src pos = .error e) :
    (p.andThen fun a => (q a).andThen (r a)) src pos = .error e := by
  rw [andThen] at failed ⊢
  cases first : p src pos with
  | error e' =>
      rw [first] at failed
      cases failed
      rfl
  | ok a =>
      rw [first] at failed
      have second : q a.1 src a.2 = .error e := failed
      show (q a.1 src a.2).bind _ = _
      rw [second]
      rfl

/-- A result that is a value of a kind with the position behind it, or one of some errors. -/
def Ends (P : ε → Prop) (Q : α → Nat → Prop) : Except ε (α × Nat) → Prop
  | .ok r => Q r.1 r.2
  | .error e => P e

variable {A : α → Nat → Prop} {B : γ → Nat → Prop}

theorem ends_andThen (first : Ends P (fun a fin => Ends P B (k a src fin)) (p src pos)) :
    Ends P B ((p.andThen k) src pos) := by
  rw [andThen]
  cases read : p src pos with
  | error e =>
      rw [read] at first
      exact first
  | ok r =>
      rw [read] at first
      exact first

theorem Ends.mono {A' : α → Nat → Prop} {result : Except ε (α × Nat)} (ends : Ends P A result)
    (weaker : ∀ a fin, A a fin → A' a fin) : Ends P A' result := by
  cases result with
  | error e => exact ends
  | ok r => exact weaker r.1 r.2 ends

/-- Reading one thing and then another. -/
theorem Ends.andThen (first : Ends P A (p src pos))
    (later : ∀ a fin, A a fin → Ends P B (k a src fin)) : Ends P B ((p.andThen k) src pos) :=
  ends_andThen (first.mono later)

theorem ends_take {short : ε} (wrong : P short) (n : Nat) :
    Ends P (fun bs fin => fin = pos + n ∧ bs.length = n ∧ Stands src pos bs)
      (take short n src pos) := by
  rw [take]
  split
  case isTrue within =>
    have len : ((src.drop pos).take n).length = n := by
      rw [List.length_take, List.length_drop]
      omega
    refine ⟨rfl, len, src.take pos, (src.drop pos).drop n, ?_, ?_⟩
    · rw [List.take_append_drop, List.take_append_drop]
    · rw [List.length_take]
      omega
  case isFalse => exact wrong

/-- A reader that never leaves its text and fails only in some ways. -/
def Safe (P : ε → Prop) (p : Scan ε α) : Prop :=
  ∀ src pos, pos ≤ src.length → Ends P (fun _ fin => fin ≤ src.length) (p src pos)

theorem safe_ret (a : α) : Safe P (ret a : Scan ε α) := fun _ _ inside => inside

theorem safe_fail {e : ε} (wrong : P e) : Safe P (fail e : Scan ε α) := fun _ _ _ => wrong

theorem safe_take {short : ε} (wrong : P short) (n : Nat) : Safe P (take short n) := by
  intro src pos _
  refine (ends_take wrong n).mono fun bs fin read => ?_
  obtain ⟨rfl, rfl, stands⟩ := read
  exact stands.length_le

theorem Safe.andThen (first : Safe P p) (later : ∀ a, Safe P (k a)) : Safe P (p.andThen k) :=
  fun src pos inside => (first src pos inside).andThen fun a fin => later a src fin

theorem safe_times (each : Safe P p) (n : Nat) : Safe P (times p n) := by
  induction n with
  | zero => exact safe_ret []
  | succ n ih => exact each.andThen fun a => ih.andThen fun as => safe_ret (a :: as)

end Scan

end Apitap.Foundation
