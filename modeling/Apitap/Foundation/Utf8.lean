import Mathlib.Data.List.Basic

/-!
# Well-formed UTF-8

A machine reads a text byte by byte: the bytes it still owes the character it is in, and the
bounds of the next one. A text is well formed when no byte is refused and nothing is owed at
its end. Cut where a character starts, both its parts are well formed.
-/

namespace Apitap.Foundation

namespace Utf8

/-- The bytes owed to a character, and the bounds of the next one. -/
structure Owes where
  bytes : Nat
  low : Nat
  high : Nat
deriving DecidableEq

/-- A byte that goes on with a character. -/
def Tail (b : UInt8) : Prop := 0x80 ≤ b.toNat ∧ b.toNat ≤ 0xBF

instance (b : UInt8) : Decidable (Tail b) := inferInstanceAs (Decidable (_ ∧ _))

def start : Owes := ⟨0, 0x80, 0xBF⟩

/-- What the first byte of a character makes the rest of it. -/
def first (b : Nat) : Option Owes :=
  if b < 0x80 then some start
  else if b < 0xC2 then none
  else if b ≤ 0xDF then some ⟨1, 0x80, 0xBF⟩
  else if b = 0xE0 then some ⟨2, 0xA0, 0xBF⟩
  else if b = 0xED then some ⟨2, 0x80, 0x9F⟩
  else if b ≤ 0xEF then some ⟨2, 0x80, 0xBF⟩
  else if b = 0xF0 then some ⟨3, 0x90, 0xBF⟩
  else if b ≤ 0xF3 then some ⟨3, 0x80, 0xBF⟩
  else if b = 0xF4 then some ⟨3, 0x80, 0x8F⟩
  else none

def step (s : Owes) (b : UInt8) : Option Owes :=
  if s.bytes = 0 then first b.toNat
  else if s.low ≤ b.toNat ∧ b.toNat ≤ s.high then some ⟨s.bytes - 1, 0x80, 0xBF⟩
  else none

def run (s : Owes) : List UInt8 → Option Owes
  | [] => some s
  | b :: bs => (step s b).bind fun s => run s bs

def valid (bs : List UInt8) : Bool := (run start bs).any fun s => s.bytes = 0

/-- The bounds never leave those of a byte that goes on. -/
def Owes.Sound (s : Owes) : Prop := (s.bytes = 0 → s = start) ∧ 0x80 ≤ s.low ∧ s.high ≤ 0xBF

variable {s s' : Owes} {b : UInt8} {bs cs : List UInt8}

theorem sound_start : start.Sound := ⟨fun _ => rfl, by decide, by decide⟩

theorem sound_ite {c : Prop} [Decidable c] {x y : Option Owes} (yes : ∀ s ∈ x, s.Sound)
    (no : ∀ s ∈ y, s.Sound) : ∀ s ∈ (if c then x else y), s.Sound := by
  split
  · exact yes
  · exact no

theorem sound_some {n low high : Nat} (owed : n ≠ 0) (above : 0x80 ≤ low) (below : high ≤ 0xBF) :
    ∀ s ∈ some (⟨n, low, high⟩ : Owes), s.Sound := by
  intro s mem
  cases mem
  exact ⟨fun none => absurd none owed, above, below⟩

theorem sound_first {n : Nat} : ∀ s ∈ first n, s.Sound := by
  have here : ∀ s ∈ some start, s.Sound := by
    intro s mem
    cases mem
    exact sound_start
  have refused : ∀ s ∈ (none : Option Owes), s.Sound := by
    intro s mem
    cases mem
  rw [first]
  apply sound_ite here
  apply sound_ite refused
  apply sound_ite (sound_some (by decide) (by decide) (by decide))
  apply sound_ite (sound_some (by decide) (by decide) (by decide))
  apply sound_ite (sound_some (by decide) (by decide) (by decide))
  apply sound_ite (sound_some (by decide) (by decide) (by decide))
  apply sound_ite (sound_some (by decide) (by decide) (by decide))
  apply sound_ite (sound_some (by decide) (by decide) (by decide))
  apply sound_ite (sound_some (by decide) (by decide) (by decide))
  exact refused

theorem sound_step (is : step s b = some s') : s'.Sound := by
  rw [step] at is
  split_ifs at is
  · exact sound_first _ is
  · cases is
    refine ⟨?_, Nat.le_refl 0x80, Nat.le_refl 0xBF⟩
    intro none
    exact congrArg (fun n => (⟨n, 0x80, 0xBF⟩ : Owes)) none

theorem sound_run (sound : s.Sound) (is : run s bs = some s') : s'.Sound := by
  induction bs generalizing s with
  | nil =>
      cases is
      exact sound
  | cons b bs ih =>
      obtain ⟨s₁, one, rest⟩ := Option.bind_eq_some_iff.mp is
      exact ih (sound_step one) rest

theorem run_append : run s (bs ++ cs) = (run s bs).bind fun s => run s cs := by
  induction bs generalizing s with
  | nil => rfl
  | cons b bs ih =>
      rw [List.cons_append, run, run, Option.bind_assoc]
      exact congrArg _ (funext fun _ => ih)

theorem valid_iff : valid bs = true ↔ run start bs = some start := by
  rw [valid]
  constructor
  · intro ends
    obtain ⟨s, is, none⟩ := Option.any_eq_true _ _ |>.mp ends
    rw [is, (sound_run sound_start is).1 (of_decide_eq_true none)]
  · intro is
    rw [is]
    rfl

/-- ASCII text is valid. -/
theorem valid_of_ascii (ascii : ∀ b ∈ bs, b < 128) : valid bs = true := by
  apply valid_iff.mpr
  induction bs with
  | nil => rfl
  | cons b bs ih =>
      have small : b.toNat < 0x80 := ascii b List.mem_cons_self
      have one : step start b = some start := (if_pos rfl).trans (if_pos small)
      rw [run, one, Option.bind_some]
      exact ih fun b' mem => ascii b' (List.mem_cons_of_mem _ mem)

/-- A byte that goes on with a character starts none. -/
theorem first_tail (tail : Tail b) : first b.toNat = none := by
  obtain ⟨low, high⟩ := tail
  rw [first, if_neg (Nat.not_lt.mpr low), if_pos (by omega)]

theorem tail_of_step (owes : s.bytes ≠ 0) (sound : s.Sound) (is : step s b = some s') :
    Tail b := by
  rw [step, if_neg owes] at is
  split_ifs at is with within
  exact ⟨Nat.le_trans sound.2.1 within.1, Nat.le_trans within.2 sound.2.2⟩

/-- No character starts with a byte that goes on with one. -/
theorem head_of_valid (ok : valid bs = true) : ∀ b ∈ bs.head?, ¬ Tail b := by
  intro b mem tail
  cases bs with
  | nil => cases mem
  | cons c cs =>
      cases mem
      obtain ⟨s, one, -⟩ := Option.bind_eq_some_iff.mp (valid_iff.mp ok)
      have none : step start b = none := first_tail tail
      rw [none] at one
      cases one

/-- A well-formed text cut where a character starts. -/
theorem valid_split (ok : valid (bs ++ cs) = true) (starts : ∀ b ∈ cs.head?, ¬ Tail b) :
    valid bs = true ∧ valid cs = true := by
  have whole := valid_iff.mp ok
  rw [run_append] at whole
  obtain ⟨s, front, back⟩ := Option.bind_eq_some_iff.mp whole
  have sound := sound_run sound_start front
  have between : s = start := by
    cases cs with
    | nil => exact Option.some.inj back
    | cons c cs =>
        obtain ⟨s', one, -⟩ := Option.bind_eq_some_iff.mp back
        by_contra within
        exact starts c rfl (tail_of_step (fun none => within (sound.1 none)) sound one)
  subst between
  exact ⟨valid_iff.mpr front, valid_iff.mpr back⟩

/-- Texts one behind the other: where the whole is well formed, all of them are, exactly if
each starts with a character. -/
theorem all_valid_iff {texts : List (List UInt8)} (ok : valid texts.flatten = true) :
    (∀ t ∈ texts, valid t = true) ↔ ∀ t ∈ texts, ∀ b ∈ t.head?, ¬ Tail b := by
  constructor
  · intro each t t_mem
    exact head_of_valid (each t t_mem)
  · intro starts
    induction texts with
    | nil =>
        intro t t_mem
        cases t_mem
    | cons t texts ih =>
        have rest : ∀ b ∈ texts.flatten.head?, ¬ Tail b := by
          intro b mem
          rw [List.head?_flatten] at mem
          obtain ⟨u, u_mem, here⟩ := List.exists_of_findSome?_eq_some mem
          exact starts u (List.mem_cons_of_mem _ u_mem) b here
        obtain ⟨here, later⟩ := valid_split ok rest
        intro u u_mem
        cases List.mem_cons.mp u_mem with
        | inl same => exact same ▸ here
        | inr more => exact ih later (fun v v_mem => starts v (List.mem_cons_of_mem _ v_mem)) u more

end Utf8

end Apitap.Foundation
