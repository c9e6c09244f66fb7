import Mathlib.Algebra.Order.Ring.Nat
import Mathlib.Data.List.Nodup

/-!
# A fair counting semaphore

Permits, and those who wait for some of them in the order they asked. Released permits go to
the front of the queue first; nobody takes a permit past somebody who waits for it.
-/

namespace Apitap.Foundation

/-- The permits nobody holds, and who waits for how many. -/
structure Semaphore (ι : Type) where
  free : Nat
  waiting : List (ι × Nat)

namespace Semaphore

variable {ι : Type}

def new (n : Nat) : Semaphore ι := ⟨n, []⟩

variable (s : Semaphore ι)

/-- The permits there are for somebody who has not waited. -/
def spare : Nat := if s.waiting = [] then s.free else 0

/-- `n` permits at once, or a place in the queue; whether it got them. -/
def acquire (i : ι) (n : Nat) : Semaphore ι × Bool :=
  if n ≤ s.spare then ({ s with free := s.free - n }, true)
  else ({ s with waiting := s.waiting ++ [(i, n)] }, false)

/-- A permit, if there is one now. -/
def tryAcquire : Option (Semaphore ι) :=
  if 0 < s.spare then some { s with free := s.free - 1 } else none

/-- The front of the queue, as far as the permits go. -/
def serve : Nat → List (ι × Nat) → List (ι × Nat) × Semaphore ι
  | free, [] => ([], ⟨free, []⟩)
  | free, w :: ws =>
      if w.2 ≤ free then
        let r := serve (free - w.2) ws
        (w :: r.1, r.2)
      else ([], ⟨free, w :: ws⟩)

/-- Permits come back: who is served by them. -/
def release (n : Nat) : List (ι × Nat) × Semaphore ι := serve (s.free + n) s.waiting

/-- Nobody waits for what is there. -/
def Fair : Prop := ∀ w ∈ s.waiting.head?, s.free < w.2

variable {s} {i : ι} {n : Nat} {ws : List (ι × Nat)}

theorem serve_waiting : (serve n ws).1 ++ (serve n ws).2.waiting = ws := by
  induction ws generalizing n with
  | nil => rfl
  | cons w ws ih =>
      rw [serve]
      by_cases enough : w.2 ≤ n
      · rw [if_pos enough]
        exact congrArg (w :: ·) ih
      · rw [if_neg enough]
        rfl

/-- The permits are those of the served and those left. -/
theorem serve_free : (serve n ws).2.free + ((serve n ws).1.map Prod.snd).sum = n := by
  induction ws generalizing n with
  | nil => rfl
  | cons w ws ih =>
      rw [serve]
      by_cases enough : w.2 ≤ n
      · have rest := @ih (n - w.2)
        rw [if_pos enough]
        simp only [List.map_cons, List.sum_cons]
        omega
      · rw [if_neg enough]
        rfl

theorem serve_fair : (serve n ws).2.Fair := by
  induction ws generalizing n with
  | nil =>
      intro w no
      cases no
  | cons w ws ih =>
      rw [serve]
      by_cases enough : w.2 ≤ n
      · rw [if_pos enough]
        exact ih
      · rw [if_neg enough]
        intro first is
        obtain rfl : w = first := Option.some.inj is
        exact Nat.not_le.mp enough

theorem spare_le : s.spare ≤ s.free := by
  rw [spare]
  by_cases none : s.waiting = []
  · rw [if_pos none]
  · rw [if_neg none]
    exact Nat.zero_le _

/-- What an asking comes to: the permits, or a place behind the others. -/
theorem acquire_cases (s : Semaphore ι) (i : ι) (n : Nat) :
    (n ≤ s.free ∧ s.acquire i n = ({ s with free := s.free - n }, true)) ∨
      ((s.waiting = [] → s.free < n) ∧
        s.acquire i n = ({ s with waiting := s.waiting ++ [(i, n)] }, false)) := by
  rw [acquire]
  by_cases enough : n ≤ s.spare
  · rw [if_pos enough]
    exact .inl ⟨enough.trans spare_le, rfl⟩
  · rw [if_neg enough]
    refine .inr ⟨?_, rfl⟩
    intro none
    rw [spare, if_pos none] at enough
    exact Nat.not_le.mp enough

/-- Fewer permits are waited for by as many. -/
theorem Fair.fewer (fair : s.Fair) (le : n ≤ s.free) : Fair { s with free := n } := by
  intro w is
  exact Nat.lt_of_le_of_lt le (fair w is)

theorem Fair.acquire (fair : s.Fair) (i : ι) (n : Nat) : (s.acquire i n).1.Fair := by
  rcases acquire_cases s i n with ⟨-, is⟩ | ⟨short, is⟩
  · rw [is]
    exact fair.fewer (Nat.sub_le _ _)
  · rw [is]
    intro w first
    change w ∈ (s.waiting ++ [(i, n)]).head? at first
    cases queue : s.waiting with
    | nil =>
        rw [queue] at first
        obtain rfl : (i, n) = w := Option.some.inj first
        exact short queue
    | cons v vs =>
        rw [queue] at first
        obtain rfl : v = w := Option.some.inj first
        apply fair
        rw [queue]
        rfl

theorem tryAcquire_some {t : Semaphore ι} (got : s.tryAcquire = some t) :
    s.waiting = [] ∧ 0 < s.free ∧ t = { s with free := s.free - 1 } := by
  rw [tryAcquire] at got
  split at got
  · rename_i some_
    rw [spare] at some_
    split at some_
    · rename_i none
      exact ⟨none, some_, (Option.some.inj got).symm⟩
    · cases some_
  · cases got

theorem Fair.tryAcquire {t : Semaphore ι} (fair : s.Fair) (got : s.tryAcquire = some t) :
    t.Fair := by
  obtain ⟨-, -, rfl⟩ := tryAcquire_some got
  exact fair.fewer (Nat.sub_le _ _)

/-- Whoever waits, waits for more than there is. -/
theorem Fair.short (fair : s.Fair) (waits : s.waiting ≠ []) :
    ∃ w ∈ s.waiting, s.free < w.2 := by
  obtain ⟨w, ws, is⟩ := List.exists_cons_of_ne_nil waits
  refine ⟨w, ?_, ?_⟩
  · rw [is]
    exact List.mem_cons_self
  · apply fair
    rw [is]
    rfl

end Semaphore

end Apitap.Foundation
