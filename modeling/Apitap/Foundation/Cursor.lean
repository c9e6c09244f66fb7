import Mathlib.Data.List.Basic

/-!
# Reading bytes from the front

A reader takes some bytes from the front and gives a value and what is left, or an error.
A word is read as a value when the reader takes exactly it, whatever follows; this composes
along sequences and lists. A reader leaves an end of what it was given, and the errors of a
composed one are those of its parts, at the ends they were given.
-/

namespace Apitap.Foundation

def Cursor (ε α : Type) : Type := List UInt8 → Except ε (α × List UInt8)

namespace Cursor

variable {ε α β : Type}

def ret (a : α) : Cursor ε α := fun b => .ok (a, b)

def andThen (p : Cursor ε α) (k : α → Cursor ε β) : Cursor ε β := fun b =>
  (p b).bind fun (a, rest) => k a rest

instance : Monad (Cursor ε) where
  pure := ret
  bind := andThen

def fail (e : ε) : Cursor ε α := fun _ => .error e

/-- A step that reads nothing. -/
def lift (x : Except ε α) : Cursor ε α := fun b => x.map (·, b)

/-- The next `n` bytes. -/
def take (short : ε) (n : Nat) : Cursor ε (List UInt8) := fun b =>
  if n ≤ b.length then .ok (b.take n, b.drop n) else .error short

/-- The same reader for every item of a list. -/
def each (k : α → Cursor ε β) : List α → Cursor ε (List β)
  | [] => ret []
  | a :: as => (k a).andThen fun b => (each k as).andThen fun bs => ret (b :: bs)

@[simp] theorem pure_eq (a : α) : (pure a : Cursor ε α) = ret a := rfl
@[simp] theorem bind_eq (p : Cursor ε α) (k : α → Cursor ε β) : (p >>= k) = p.andThen k := rfl

/-! ## Words read as values -/

/-- A reader takes exactly a word, as a value. -/
def Reads (p : Cursor ε α) (w : List UInt8) (a : α) : Prop := ∀ rest, p (w ++ rest) = .ok (a, rest)

variable {p : Cursor ε α} {k : α → Cursor ε β} {w v : List UInt8} {a : α} {b : β}

theorem reads_ret (a : α) : (ret a : Cursor ε α).Reads [] a := fun _ => rfl

theorem reads_lift {x : Except ε α} (ok : x = .ok a) : (lift x).Reads [] a := by
  intro rest
  rw [lift, ok]
  rfl

theorem reads_take (short : ε) {n : Nat} (len : w.length = n) : (take short n).Reads w w := by
  intro rest
  rw [take, if_pos (by rw [List.length_append]; omega), List.take_left' len, List.drop_left' len]

theorem Reads.andThen (first : p.Reads w a) (later : (k a).Reads v b) :
    (p.andThen k).Reads (w ++ v) b := by
  intro rest
  rw [Cursor.andThen, List.append_assoc, first]
  exact later rest

/-- A last step that reads nothing. -/
theorem Reads.andThen_nil (first : p.Reads w a) (later : (k a).Reads [] b) :
    (p.andThen k).Reads w b := by
  have both := first.andThen later
  rwa [List.append_nil] at both

/-- A first step that reads nothing. -/
theorem Reads.nil_andThen (first : p.Reads [] a) (later : (k a).Reads v b) :
    (p.andThen k).Reads v b := first.andThen later

/-- Items one after another, each as its own word. -/
theorem reads_each {γ : Type} {k : γ → Cursor ε β} {word : γ → List UInt8} {value : γ → β}
    {cs : List γ} (every : ∀ c ∈ cs, (k c).Reads (word c) (value c)) :
    (each k cs).Reads (cs.flatMap word) (cs.map value) := by
  induction cs with
  | nil => exact reads_ret []
  | cons c cs ih =>
      have rest := ih fun d d_mem => every d (List.mem_cons_of_mem _ d_mem)
      exact (every c List.mem_cons_self).andThen (rest.andThen_nil (reads_ret _))

/-! ## What is left, and what goes wrong -/

/-- A reader leaves an end of what it was given, and fails only in given ways at such ends. -/
structure Sound (P : List UInt8 → ε → Prop) (p : Cursor ε α) : Prop where
  within : ∀ b a rest, p b = .ok (a, rest) → rest <:+ b
  fails : ∀ b e, p b = .error e → ∃ at_, at_ <:+ b ∧ P at_ e

variable {P Q : List UInt8 → ε → Prop}

theorem Sound.mono (sound : Sound P p) (weaker : ∀ b e, P b e → Q b e) : Sound Q p where
  within := sound.within
  fails b e is := by
    obtain ⟨at_, behind, wrong⟩ := sound.fails b e is
    exact ⟨at_, behind, weaker at_ e wrong⟩

/-- What goes wrong may be told of the bytes the reader was given. -/
theorem Sound.told (sound : Sound P p) (wrong : ∀ b e, p b = .error e → Q b e) : Sound Q p where
  within := sound.within
  fails b e is := ⟨b, List.suffix_refl b, wrong b e is⟩

theorem sound_ret (a : α) : Sound P (ret a) where
  within _ _ _ is := by cases is; exact List.suffix_refl _
  fails _ _ is := nomatch is

theorem sound_fail {e : ε} (wrong : ∀ b, P b e) : Sound P (fail e : Cursor ε α) where
  within _ _ _ is := nomatch is
  fails b _ is := by cases is; exact ⟨b, List.suffix_refl b, wrong b⟩

theorem sound_lift {x : Except ε α} (wrong : ∀ b e, x = .error e → P b e) : Sound P (lift x) where
  within b a rest is := by
    cases x with
    | error e => cases is
    | ok a => cases is; exact List.suffix_refl _
  fails b e is := by
    cases x with
    | error e' => cases is; exact ⟨b, List.suffix_refl b, wrong b e rfl⟩
    | ok a => cases is

theorem sound_take {short : ε} (wrong : ∀ b, P b short) (n : Nat) : Sound P (take short n) where
  within b a rest is := by
    rw [take] at is
    split at is
    · cases is
      exact List.drop_suffix n b
    · cases is
  fails b e is := by
    rw [take] at is
    split at is
    · cases is
    · cases is
      exact ⟨b, List.suffix_refl b, wrong b⟩

theorem andThen_eq_ok {bs rest : List UInt8} :
    p.andThen k bs = .ok (b, rest) ↔ ∃ a mid, p bs = .ok (a, mid) ∧ k a mid = .ok (b, rest) := by
  rw [Cursor.andThen]
  match read : p bs with
  | .error e => exact iff_of_false nofun fun ⟨a, mid, is, _⟩ => nomatch is
  | .ok (a, mid) =>
      refine ⟨fun is => ⟨a, mid, rfl, is⟩, fun ⟨a', mid', is, given⟩ => ?_⟩
      cases is
      exact given

theorem andThen_eq_error {bs : List UInt8} {e : ε} :
    p.andThen k bs = .error e ↔
      p bs = .error e ∨ ∃ a mid, p bs = .ok (a, mid) ∧ k a mid = .error e := by
  rw [Cursor.andThen]
  match read : p bs with
  | .error e' =>
      refine ⟨fun is => .inl ?_, fun is => ?_⟩
      · cases is
        rfl
      · obtain is | ⟨a, mid, is, -⟩ := is
        · cases is
          rfl
        · cases is
  | .ok (a, mid) =>
      refine ⟨fun is => .inr ⟨a, mid, rfl, is⟩, ?_⟩
      rintro (is | ⟨a', mid', is, given⟩)
      · cases is
      · cases is
        exact given

/-- A reader gives a value for some bytes. -/
def Gives (p : Cursor ε α) (a : α) : Prop := ∃ b rest, p b = .ok (a, rest)

/-- A second reader only has to be sound for what the first one gives. -/
theorem Sound.andThen_gives (first : Sound P p) (later : ∀ a, p.Gives a → Sound P (k a)) :
    Sound P (p.andThen k) where
  within b c rest is := by
    obtain ⟨a, mid, read, is⟩ := andThen_eq_ok.mp is
    exact ((later a ⟨b, mid, read⟩).within mid c rest is).trans (first.within b a mid read)
  fails b e is := by
    obtain read | ⟨a, mid, read, is⟩ := andThen_eq_error.mp is
    · exact first.fails b e read
    · obtain ⟨at_, behind, wrong⟩ := (later a ⟨b, mid, read⟩).fails mid e is
      exact ⟨at_, behind.trans (first.within b a mid read), wrong⟩

theorem Sound.andThen (first : Sound P p) (later : ∀ a, Sound P (k a)) : Sound P (p.andThen k) :=
  first.andThen_gives fun a _ => later a

theorem Sound.ite {q : Cursor ε α} {c : Prop} [Decidable c] (yes : c → Sound P p)
    (no : ¬ c → Sound P q) : Sound P (if c then p else q) := by
  split
  case isTrue holds => exact yes holds
  case isFalse fails => exact no fails

theorem Gives.of_ret {c : α} (gives : (ret c : Cursor ε α).Gives a) : a = c := by
  obtain ⟨_, _, is⟩ := gives
  cases is
  rfl

/-- What a sequence gives, its last reader gives. -/
theorem Gives.of_andThen (gives : (p.andThen k).Gives b) : ∃ a, p.Gives a ∧ (k a).Gives b := by
  obtain ⟨bs, rest, is⟩ := gives
  obtain ⟨a, mid, read, is⟩ := andThen_eq_ok.mp is
  exact ⟨a, ⟨bs, mid, read⟩, mid, rest, is⟩

theorem Gives.length {short : ε} {n : Nat} (gives : (take short n).Gives w) : w.length = n := by
  obtain ⟨bs, rest, is⟩ := gives
  rw [take] at is
  split at is
  case isTrue enough =>
      cases is
      exact List.length_take_of_le enough
  case isFalse => cases is

theorem sound_each {γ : Type} {k : γ → Cursor ε β} {cs : List γ} (every : ∀ c ∈ cs, Sound P (k c)) :
    Sound P (each k cs) := by
  induction cs with
  | nil => exact sound_ret []
  | cons c cs ih =>
      have rest := ih fun d d_mem => every d (List.mem_cons_of_mem _ d_mem)
      exact (every c List.mem_cons_self).andThen fun b => rest.andThen fun bs => sound_ret (b :: bs)

/-! ## How much is taken -/

/-- What a reader takes, whatever it gives for it. -/
def Takes (n : Nat) (p : Cursor ε α) : Prop := ∀ b a rest, p b = .ok (a, rest) → rest = b.drop n

theorem takes_ret (a : α) : Takes 0 (ret a : Cursor ε α) := by
  intro b _ rest is
  cases is
  rfl

theorem takes_lift (x : Except ε α) : Takes 0 (lift x) := by
  intro b _ rest is
  cases x with
  | error e => cases is
  | ok a => cases is; rfl

theorem takes_take (short : ε) (n : Nat) : Takes n (take short n) := by
  intro b _ rest is
  rw [take] at is
  split at is
  · cases is
    rfl
  · cases is

theorem Takes.ite {n : Nat} {q : Cursor ε α} {c : Prop} [Decidable c] (yes : c → Takes n p)
    (no : ¬ c → Takes n q) : Takes n (if c then p else q) := by
  split
  case isTrue holds => exact yes holds
  case isFalse fails => exact no fails

theorem Takes.andThen {m n : Nat} (first : Takes m p) (later : ∀ a, Takes n (k a)) :
    Takes (m + n) (p.andThen k) := by
  intro b c rest is
  obtain ⟨a, mid, read, is⟩ := andThen_eq_ok.mp is
  rw [later a mid c rest is, first b a mid read, List.drop_drop]

end Cursor

end Apitap.Foundation
