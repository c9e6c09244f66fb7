import Apitap.Wire.CopyOut

/-!
# COPY OUT under any cut

What a COPY's bytes say at once: the payload of its CopyData messages, and how it ends. The
scan takes a window in any state as the bytes behind what was carried over, so that windows and
targets do not matter: calls deliver the payload in order and stop where the bytes do.
-/

namespace Apitap.Walsender

open Foundation
open Copy (fromBe)

/-- How a COPY ends, and the bytes behind: ReadyForQuery, an ErrorResponse with its body, a
message that is refused, or no more bytes. -/
inductive Ending where
  | ready (rest : Bytes)
  | failed (body rest : Bytes)
  | refused (e : Error) (rest : Bytes)
  | cut

/-- The bytes of a COPY at once. -/
def whole : Nat → Bytes → Bytes × Ending
  | 0, _ => ([], .cut)
  | fuel + 1, b =>
      if b.length < 5 then ([], .cut)
      else
        let tag := b.headD 0
        let len := lengthAt b
        if len < 4 then ([], .refused badLength (b.drop 5))
        else if known tag = false then ([], .refused (unexpected tag) (b.drop 5))
        else if b.length < 1 + len then (if tag = 100 then b.drop 5 else [], .cut)
        else
          let body := (b.drop 5).take (len - 4)
          let rest := b.drop (1 + len)
          if tag = 90 then ([], .ready rest)
          else if tag = 69 then ([], .failed body rest)
          else
            let more := whole fuel rest
            (if tag = 100 then body ++ more.1 else more.1, more.2)

def atOnce (b : Bytes) : Bytes × Ending := whole (b.length + 1) b

/-- The same from within a body that has `left` bytes to come. -/
def inBody (tag : UInt8) (left : Nat) (err b : Bytes) : Bytes × Ending :=
  if b.length < left then (if tag = 100 then b else [], .cut)
  else if tag = 90 then ([], .ready (b.drop left))
  else if tag = 69 then ([], .failed (err ++ b.take left) (b.drop left))
  else
    let more := atOnce (b.drop left)
    (if tag = 100 then b.take left ++ more.1 else more.1, more.2)

variable {b x : Bytes}

theorem whole_fuel {f g : Nat} (enough : b.length < f) (also : b.length < g) :
    whole f b = whole g b := by
  induction f generalizing g b with
  | zero => exact absurd enough (Nat.not_lt_zero _)
  | succ f ih =>
      cases g with
      | zero => exact absurd also (Nat.not_lt_zero _)
      | succ g =>
          rw [whole, whole]
          by_cases short : b.length < 5
          · rw [if_pos short, if_pos short]
          · have less : (b.drop (1 + lengthAt b)).length < b.length := by
              rw [List.length_drop]
              omega
            have same : whole f (b.drop (1 + lengthAt b)) = whole g (b.drop (1 + lengthAt b)) :=
              ih (by omega) (by omega)
            simp only [same]

/-- A header says what message its body is of. -/
theorem atOnce_header (long : 5 ≤ b.length) : atOnce b =
    if lengthAt b < 4 then ([], .refused badLength (b.drop 5))
    else if known (b.headD 0) = false then ([], .refused (unexpected (b.headD 0)) (b.drop 5))
    else inBody (b.headD 0) (lengthAt b - 4) [] (b.drop 5) := by
  rw [atOnce, whole, if_neg (Nat.not_lt.mpr long)]
  dsimp only
  by_cases small : lengthAt b < 4
  · rw [if_pos small, if_pos small]
  · rw [if_neg small, if_neg small]
    split
    · rfl
    · have short_iff : (b.drop 5).length < lengthAt b - 4 ↔ b.length < 1 + lengthAt b := by
        rw [List.length_drop]
        omega
      have behind : (b.drop 5).drop (lengthAt b - 4) = b.drop (1 + lengthAt b) := by
        rw [List.drop_drop]
        congr 1
        omega
      have less : (b.drop (1 + lengthAt b)).length < b.length := by
        rw [List.length_drop]
        omega
      rw [inBody]
      simp only [short_iff, behind, List.nil_append]
      rw [whole_fuel less (Nat.lt_succ_self _)]
      rfl

theorem atOnce_short (short : b.length < 5) : atOnce b = ([], .cut) := by
  rw [atOnce, whole, if_pos short]

/-! ## Where a scan stands -/

/-- What the bytes `b` come to in a scan's state. -/
def resume (head : Bytes) (tag : UInt8) (left : Nat) (err b : Bytes) : Bytes × Ending :=
  if left = 0 then atOnce (head ++ b) else inBody tag left err b

/-- A state between two rounds: within a header or a body, an error's body only there. -/
structure Mid (head : Bytes) (tag : UInt8) (left : Nat) (err : Bytes) : Prop where
  short : head.length < 5
  head : 0 < left → head = []
  err : left = 0 ∨ tag ≠ 69 → err = []

/-- What the rest of the COPY comes to, with what is in the buffer before it. -/
def Scan.tells (s : Scan) (x : Bytes) : Bytes × Ending :=
  let r := resume s.head s.tag s.left s.err (s.w ++ x)
  (s.buf ++ r.1, r.2)

/-- A scan that goes on as it was, with part of its window used. -/
structure Goes (s t : Scan) : Prop where
  mid : Mid t.head t.tag t.left t.err
  open_ : t.done = false ∧ t.fail = none
  suffix : t.w <:+ s.w
  fewer : t.w.length < s.w.length
  same : ∀ x, t.tells x = s.tells x

/-- A scan that came to the COPY's end or to an error. -/
structure Halts (lossy : Lossy) (s t : Scan) : Prop where
  suffix : t.w <:+ s.w
  fewer : t.w.length < s.w.length
  tells : (t.done = true ∧ t.fail = none ∧ ∀ x, s.tells x = (t.buf, .ready (t.w ++ x))) ∨
    (∃ body, t.fail = some (parseError lossy body) ∧
      ∀ x, s.tells x = (t.buf, .failed body (t.w ++ x))) ∨
    ∃ e, t.fail = some e ∧ ∀ x, s.tells x = (t.buf, .refused e (t.w ++ x))

variable {lossy : Lossy} {target : Nat} {s t : Scan}

/-- A run of a body that goes on behind it. -/
theorem inBody_run {tag : UInt8} {left n : Nat} {err w : Bytes} (le' : n ≤ w.length)
    (more : n < left) (x : Bytes) :
    inBody tag left err (w ++ x) =
      let r := inBody tag (left - n) (if tag = 69 then err ++ w.take n else err) (w.drop n ++ x)
      (if tag = 100 then w.take n ++ r.1 else r.1, r.2) := by
  have first : (w ++ x).drop n = w.drop n ++ x := List.drop_append_of_le_length le'
  have sum : left = n + (left - n) := by omega
  have short_iff : (w ++ x).length < left ↔ (w.drop n ++ x).length < left - n := by
    rw [List.length_append, List.length_append, List.length_drop]
    omega
  have behind : (w ++ x).drop left = (w.drop n ++ x).drop (left - n) := by
    rw [← first, List.drop_drop, ← sum]
  have front : (w ++ x).take left = w.take n ++ (w.drop n ++ x).take (left - n) := by
    conv_lhs => rw [sum, List.take_add, first, List.take_append_of_le_length le']
  have all : w ++ x = w.take n ++ (w.drop n ++ x) := by
    rw [← List.append_assoc, List.take_append_drop]
  rw [inBody, inBody]
  simp only [short_iff, behind, front]
  by_cases short : (w.drop n ++ x).length < left - n
  · rw [if_pos short, if_pos short]
    split
    · exact Prod.ext all rfl
    · rfl
  · rw [if_neg short, if_neg short]
    by_cases data : tag = 100
    · subst data
      simp only [if_true, List.append_assoc]
      rfl
    · by_cases wrong : tag = 69
      · subst wrong
        simp only [if_true, List.append_assoc]
        rfl
      · simp only [if_neg data, if_neg wrong]

/-- The last run of a body. -/
theorem inBody_last {tag : UInt8} {left : Nat} {err w : Bytes} (le : left ≤ w.length) (x : Bytes) :
    inBody tag left err (w ++ x) =
      if tag = 90 then ([], .ready (w.drop left ++ x))
      else if tag = 69 then ([], .failed (err ++ w.take left) (w.drop left ++ x))
      else
        let more := atOnce (w.drop left ++ x)
        (if tag = 100 then w.take left ++ more.1 else more.1, more.2) := by
  have long : ¬ (w ++ x).length < left := by
    rw [List.length_append]
    omega
  rw [inBody, if_neg long, List.drop_append_of_le_length le, List.take_append_of_le_length le]

/-! ## One round -/

/-- What the buffer and an error's body are with a run of a message. -/
theorem body_eq (s : Scan) : s.body lossy target =
    let n := min s.w.length s.left
    let t : Scan := { s with
      buf := if s.tag = 100 then s.buf ++ s.w.take n else s.buf
      err := if s.tag = 69 then s.err ++ s.w.take n else s.err
      left := s.left - n
      w := s.w.drop n }
    if t.left = 0 then
      if s.tag = 90 then ({ t with done := true }, false)
      else if s.tag = 69 then ({ t with fail := some (parseError lossy t.err), err := [] }, false)
      else if s.tag = 100 ∧ target ≤ t.buf.length then (t, false)
      else (t, true)
    else (t, true) := rfl

theorem drop_suffix (w : Bytes) (n : Nat) : w.drop n <:+ w := List.drop_suffix n w

theorem tells_left (some_left : 0 < s.left) (x : Bytes) : s.tells x =
    (s.buf ++ (inBody s.tag s.left s.err (s.w ++ x)).1,
      (inBody s.tag s.left s.err (s.w ++ x)).2) := by
  rw [Scan.tells, resume, if_neg some_left.ne']

theorem tells_none (no_left : s.left = 0) (x : Bytes) : s.tells x =
    (s.buf ++ (atOnce (s.head ++ (s.w ++ x))).1, (atOnce (s.head ++ (s.w ++ x))).2) := by
  rw [Scan.tells, resume, if_pos no_left]

/-- A round in a body. -/
theorem body_spec (some_left : 0 < s.left) (filled : s.w ≠ [])
    (mid : Mid s.head s.tag s.left s.err) (fresh : s.done = false ∧ s.fail = none) :
    (Goes s (s.body lossy target).1 ∧ ((s.body lossy target).2 = false →
        target ≤ (s.body lossy target).1.buf.length)) ∨
      (s.body lossy target).2 = false ∧ Halts lossy s (s.body lossy target).1 := by
  have some_window := List.length_pos_of_ne_nil filled
  rw [body_eq]
  dsimp only
  rcases Nat.lt_or_ge s.w.length s.left with short | long
  · have n_eq : min s.w.length s.left = s.w.length := Nat.min_eq_left short.le
    have left' : ¬ s.left - s.w.length = 0 := by omega
    rw [n_eq, if_neg left']
    refine .inl ⟨⟨?_, fresh, drop_suffix _ _, ?_, ?_⟩, fun no => (by cases no)⟩
    · refine ⟨mid.short, fun _ => mid.head some_left, ?_⟩
      rintro (none | other)
      · exact absurd none left'
      · rw [if_neg other]
        exact mid.err (.inr other)
    · rw [List.drop_length]
      exact some_window
    · intro x
      rw [tells_left (by exact Nat.pos_of_ne_zero left'), tells_left some_left,
        inBody_run (Nat.le_refl _) short]
      dsimp only
      by_cases data : s.tag = 100
      · rw [if_pos data, if_pos data, List.append_assoc]
      · rw [if_neg data, if_neg data]
  · have n_eq : min s.w.length s.left = s.left := Nat.min_eq_right long
    have head : s.head = [] := mid.head some_left
    have fewer : (s.w.drop s.left).length < s.w.length := by
      rw [List.length_drop]
      omega
    rw [n_eq, if_pos (Nat.sub_self _)]
    by_cases last : s.tag = 90
    · rw [if_pos last]
      refine .inr ⟨rfl, drop_suffix _ _, fewer, .inl ⟨rfl, fresh.2, ?_⟩⟩
      intro x
      have other : s.tag ≠ 100 := by rw [last]; decide
      rw [tells_left some_left, inBody_last long, if_pos last, if_neg other, List.append_nil]
    · rw [if_neg last]
      by_cases wrong : s.tag = 69
      · rw [if_pos wrong]
        refine .inr ⟨rfl, drop_suffix _ _, fewer, .inr (.inl ⟨_, rfl, ?_⟩)⟩
        intro x
        have other : s.tag ≠ 100 := by rw [wrong]; decide
        rw [tells_left some_left, inBody_last long, if_neg last, if_pos wrong, if_neg other,
          List.append_nil, if_pos wrong]
      · rw [if_neg wrong]
        have goes : Goes s { s with
            buf := if s.tag = 100 then s.buf ++ s.w.take s.left else s.buf
            err := if s.tag = 69 then s.err ++ s.w.take s.left else s.err
            left := s.left - s.left
            w := s.w.drop s.left } := by
          refine ⟨⟨mid.short, fun _ => head, ?_⟩, fresh, drop_suffix _ _, fewer, ?_⟩
          · intro _
            rw [if_neg wrong]
            exact mid.err (.inr wrong)
          · intro x
            have run : inBody s.tag s.left s.err (s.w ++ x) = _ := inBody_last long x
            rw [if_neg last, if_neg wrong] at run
            rw [tells_none (by exact Nat.sub_self _), tells_left some_left, run]
            dsimp only
            rw [head, List.nil_append]
            by_cases data : s.tag = 100
            · rw [if_pos data, if_pos data, List.append_assoc]
            · rw [if_neg data, if_neg data]
        by_cases reached : s.tag = 100 ∧
            target ≤ (if s.tag = 100 then s.buf ++ s.w.take s.left else s.buf).length
        · rw [if_pos reached]
          exact .inl ⟨goes, fun _ => reached.2⟩
        · rw [if_neg reached]
          exact .inl ⟨goes, fun no => (by cases no)⟩

/-- A header is read whole, or its front is carried over and the window is used up. -/
theorem header_cases (filled : s.w ≠ []) (short : s.head.length < 5) :
    (∃ h w, s.header = (some h, { s with head := [], w := w }) ∧ h.length = 5 ∧
      s.head ++ s.w = h ++ w ∧ w <:+ s.w ∧ w.length < s.w.length) ∨
    (s.head ++ s.w).length < 5 ∧
      s.header = (none, { s with head := s.head ++ s.w, w := [] }) := by
  have some_window := List.length_pos_of_ne_nil filled
  rw [Scan.header]
  by_cases common : s.head = [] ∧ 5 ≤ s.w.length
  · rw [if_pos common]
    refine .inl ⟨s.w.take 5, s.w.drop 5, ?_, ?_, ?_, drop_suffix _ _, ?_⟩
    · rw [← common.1]
    · rw [List.length_take]
      omega
    · rw [common.1, List.nil_append, List.take_append_drop]
    · rw [List.length_drop]
      omega
  · rw [if_neg common]
    dsimp only
    rcases Nat.lt_or_ge s.w.length (5 - s.head.length) with less | enough
    · have n_eq : min s.w.length (5 - s.head.length) = s.w.length := Nat.min_eq_left less.le
      have five : (s.head ++ s.w).length < 5 := by
        rw [List.length_append]
        omega
      rw [n_eq, List.take_length, List.drop_length, if_pos five]
      exact .inr ⟨five, rfl⟩
    · have n_eq : min s.w.length (5 - s.head.length) = 5 - s.head.length :=
        Nat.min_eq_right enough
      have five : (s.head ++ s.w.take (5 - s.head.length)).length = 5 := by
        rw [List.length_append, List.length_take]
        omega
      rw [n_eq, if_neg (Nat.not_lt.mpr five.ge)]
      refine .inl ⟨_, _, rfl, five, ?_, drop_suffix _ _, ?_⟩
      · rw [List.append_assoc, List.take_append_drop]
      · rw [List.length_drop]
        omega

/-- What a header's five bytes say of the stream behind them. -/
theorem atOnce_five {h : Bytes} (five : h.length = 5) (y : Bytes) : atOnce (h ++ y) =
    if fromBe (h.drop 1) < 4 then ([], .refused badLength y)
    else if known (h.headD 0) = false then ([], .refused (unexpected (h.headD 0)) y)
    else inBody (h.headD 0) (fromBe (h.drop 1) - 4) [] y := by
  have long : 5 ≤ (h ++ y).length := by
    rw [List.length_append]
    omega
  have rest : (h ++ y).drop 5 = y := by
    rw [← five, List.drop_left]
  have size : lengthAt h = fromBe (h.drop 1) := by
    rw [lengthAt, List.take_of_length_le]
    rw [List.length_drop]
    omega
  rw [atOnce_header long, lengthAt_append five.ge, headD_append five.ge, rest, size]

/-- A message begins: the scan goes on into its body, or halts on it. -/
theorem begin_spec {h w : Bytes} {s₀ : Scan} (five : h.length = 5)
    (is : s = { s₀ with head := [], w := w })
    (whole_is : s₀.head ++ s₀.w = h ++ w) (suffix : w <:+ s₀.w) (fewer : w.length < s₀.w.length)
    (no_left : s₀.left = 0) (mid : Mid s₀.head s₀.tag s₀.left s₀.err)
    (fresh : s₀.done = false ∧ s₀.fail = none) :
    (Goes s₀ (s.begin_ lossy h).1 ∧ (s.begin_ lossy h).2 = true) ∨
      (s.begin_ lossy h).2 = false ∧ Halts lossy s₀ (s.begin_ lossy h).1 := by
  have tells (x : Bytes) : s₀.tells x =
      (s₀.buf ++ (atOnce (h ++ (w ++ x))).1, (atOnce (h ++ (w ++ x))).2) := by
    rw [tells_none no_left, ← List.append_assoc, whole_is, List.append_assoc]
  subst is
  rw [Scan.begin_]
  dsimp only
  by_cases small : fromBe (h.drop 1) < 4
  · rw [if_pos small]
    refine .inr ⟨rfl, suffix, fewer, .inr (.inr ⟨_, rfl, ?_⟩)⟩
    intro x
    rw [tells, atOnce_five five, if_pos small, List.append_nil]
  · rw [if_neg small]
    by_cases strange : known (h.headD 0) = false
    · rw [if_pos strange]
      refine .inr ⟨rfl, suffix, fewer, .inr (.inr ⟨_, rfl, ?_⟩)⟩
      intro x
      rw [tells, atOnce_five five, if_neg small, if_pos strange, List.append_nil]
    · rw [if_neg strange]
      have into (x : Bytes) : s₀.tells x =
          (s₀.buf ++ (inBody (h.headD 0) (fromBe (h.drop 1) - 4) [] (w ++ x)).1,
            (inBody (h.headD 0) (fromBe (h.drop 1) - 4) [] (w ++ x)).2) := by
        rw [tells, atOnce_five five, if_neg small, if_neg strange]
      by_cases ends : fromBe (h.drop 1) - 4 = 0 ∧ h.headD 0 = 90
      · rw [if_pos ends]
        refine .inr ⟨rfl, suffix, fewer, .inl ⟨rfl, fresh.2, ?_⟩⟩
        intro x
        have run : inBody (h.headD 0) (fromBe (h.drop 1) - 4) [] (w ++ x) = _ :=
          inBody_last (ends.1 ▸ Nat.zero_le _) x
        rw [if_pos ends.2, ends.1] at run
        rw [into, ends.1, run, List.append_nil]
        rfl
      · rw [if_neg ends]
        by_cases wrong : fromBe (h.drop 1) - 4 = 0 ∧ h.headD 0 = 69
        · rw [if_pos wrong]
          refine .inr ⟨rfl, suffix, fewer, .inr (.inl ⟨[], rfl, ?_⟩)⟩
          intro x
          have run : inBody (h.headD 0) (fromBe (h.drop 1) - 4) [] (w ++ x) = _ :=
            inBody_last (wrong.1 ▸ Nat.zero_le _) x
          have other : h.headD 0 ≠ 90 := by rw [wrong.2]; decide
          rw [if_neg other, if_pos wrong.2, wrong.1] at run
          rw [into, wrong.1, run, List.append_nil]
          rfl
        · rw [if_neg wrong]
          refine .inl ⟨⟨?_, fresh, suffix, fewer, ?_⟩, rfl⟩
          · exact ⟨Nat.zero_lt_succ 4, fun _ => rfl, fun _ => mid.err (.inl no_left)⟩
          · intro x
            rw [into]
            by_cases empty : fromBe (h.drop 1) - 4 = 0
            · have not_ready : h.headD 0 ≠ 90 := fun is => ends ⟨empty, is⟩
              have not_error : h.headD 0 ≠ 69 := fun is => wrong ⟨empty, is⟩
              have run : inBody (h.headD 0) (fromBe (h.drop 1) - 4) [] (w ++ x) = _ :=
                inBody_last (empty ▸ Nat.zero_le _) x
              rw [if_neg not_ready, if_neg not_error, empty] at run
              rw [tells_none (by exact empty), empty, run]
              dsimp only
              rw [List.take_zero, List.nil_append, List.nil_append, List.drop_zero, ite_self]
            · rw [tells_left (by exact Nat.pos_of_ne_zero empty), mid.err (.inl no_left)]

/-- A round goes on as it was, with the window used up or the buffer filled where it stops, or
halts. -/
theorem turn_spec (filled : s.w ≠ []) (mid : Mid s.head s.tag s.left s.err)
    (fresh : s.done = false ∧ s.fail = none) :
    (Goes s (s.turn lossy target).1 ∧ ((s.turn lossy target).2 = false →
        (s.turn lossy target).1.w = [] ∨ target ≤ (s.turn lossy target).1.buf.length)) ∨
      (s.turn lossy target).2 = false ∧ Halts lossy s (s.turn lossy target).1 := by
  rw [Scan.turn]
  by_cases some_left : 0 < s.left
  · rw [if_pos some_left]
    rcases body_spec some_left filled mid fresh with ⟨goes, stops⟩ | halts
    · exact .inl ⟨goes, fun no => .inr (stops no)⟩
    · exact .inr halts
  · have no_left : s.left = 0 := by omega
    rw [if_neg some_left]
    rcases header_cases filled mid.short with
      ⟨h, w, read, five, whole_is, suffix, fewer⟩ | ⟨five, read⟩
    · rw [read]
      rcases begin_spec five rfl whole_is suffix fewer no_left mid fresh with ⟨goes, on⟩ | halts
      · refine .inl ⟨goes, ?_⟩
        intro no
        rw [show (Scan.begin_ lossy _ h).2 = true from on] at no
        cases no
      · exact .inr halts
    · rw [read]
      refine .inl ⟨⟨⟨five, ?_, mid.err⟩, fresh, List.nil_suffix, ?_, ?_⟩, fun _ => .inl rfl⟩
      · intro left
        exact absurd left some_left
      · exact List.length_pos_of_ne_nil filled
      · intro x
        rw [tells_none (by exact no_left), tells_none no_left, List.append_assoc]
        rfl

/-! ## A window -/

theorem Goes.trans {u : Scan} (first : Goes s t) (second : Goes t u) : Goes s u where
  mid := second.mid
  open_ := second.open_
  suffix := second.suffix.trans first.suffix
  fewer := second.fewer.trans first.fewer
  same x := (second.same x).trans (first.same x)

theorem Goes.halts {u : Scan} (first : Goes s t) (second : Halts lossy t u) : Halts lossy s u where
  suffix := second.suffix.trans first.suffix
  fewer := second.fewer.trans first.fewer
  tells := by
    rcases second.tells with ⟨done, none, ends⟩ | ⟨body, fail, ends⟩ | ⟨e, fail, ends⟩
    · exact .inl ⟨done, none, fun x => (first.same x).symm.trans (ends x)⟩
    · exact .inr (.inl ⟨body, fail, fun x => (first.same x).symm.trans (ends x)⟩)
    · exact .inr (.inr ⟨e, fail, fun x => (first.same x).symm.trans (ends x)⟩)

theorem loop_empty {fuel : Nat} (empty : s.w = []) : s.loop lossy target fuel = s := by
  cases fuel with
  | zero => rfl
  | succ fuel => exact if_pos empty

/-- A window's scan stops where the window ends or the buffer is filled, or halts. -/
theorem loop_spec {fuel : Nat} (enough : s.w.length < fuel) (filled : s.w ≠ [])
    (mid : Mid s.head s.tag s.left s.err) (fresh : s.done = false ∧ s.fail = none) :
    (Goes s (s.loop lossy target fuel) ∧ ((s.loop lossy target fuel).w = [] ∨
        target ≤ (s.loop lossy target fuel).buf.length)) ∨
      Halts lossy s (s.loop lossy target fuel) := by
  induction fuel generalizing s with
  | zero => exact absurd enough (Nat.not_lt_zero _)
  | succ fuel ih =>
      rw [Scan.loop, if_neg filled]
      dsimp only
      have spec : (Goes s (s.turn lossy target).1 ∧ ((s.turn lossy target).2 = false →
          (s.turn lossy target).1.w = [] ∨ target ≤ (s.turn lossy target).1.buf.length)) ∨
          (s.turn lossy target).2 = false ∧ Halts lossy s (s.turn lossy target).1 :=
        turn_spec filled mid fresh
      rcases spec with ⟨goes, stops⟩ | ⟨no, halts⟩
      · by_cases on : (s.turn lossy target).2 = true
        · rw [if_pos on]
          by_cases empty : (s.turn lossy target).1.w = []
          · rw [loop_empty empty]
            exact .inl ⟨goes, .inl empty⟩
          · have fewer := goes.fewer
            rcases ih (by omega) empty goes.mid goes.open_ with ⟨more, stops⟩ | halts
            · exact .inl ⟨goes.trans more, stops⟩
            · exact .inr (goes.halts halts)
        · rw [if_neg on]
          exact .inl ⟨goes, stops (by simpa using on)⟩
      · rw [if_neg (by rw [no]; decide)]
        exact .inr halts

/-! ## A call -/

namespace CopyOut

variable {c : CopyOut} {buf : Bytes}

/-- What the rest of the COPY comes to from where a connection stands. -/
def tells (c : CopyOut) : Bytes × Ending := resume c.head c.tag c.left c.err c.rd.bytes

/-- The error a call ends with: its own, where a ReadyForQuery is found behind it. -/
def drained (e : Error) (rest : Bytes) : Error :=
  match drainToReady (rest.length + 1) rest with
  | .error e' => e'
  | .ok _ => e

/-- What a call leaves of what was to come; where it goes on, fewer than `n` bytes. -/
inductive Ran (lossy : Lossy) (was : Bytes × Ending) (n : Nat) : Called → Prop where
  | more {state : CopyOut} {buf : Bytes} (mid : Mid state.head state.tag state.left state.err)
      (going : state.eof = false) (fewer : state.rd.bytes.length < n)
      (same : was = (buf ++ state.tells.1, state.tells.2)) : Ran lossy was n ⟨state, buf, .ok true⟩
  | ready {state : CopyOut} {buf : Bytes} (ended : state.eof = true)
      (same : was = (buf, .ready state.rd.bytes)) :
      Ran lossy was n ⟨state, buf, .ok (decide (buf ≠ []))⟩
  | stopped {state : CopyOut} {buf rest : Bytes} {e : Error}
      (same : (∃ body, e = parseError lossy body ∧ was = (buf, .failed body rest)) ∨
        was = (buf, .refused e rest)) : Ran lossy was n ⟨state, buf, .error (drained e rest)⟩
  | cut {state : CopyOut} {buf : Bytes} (same : was = (buf, .cut)) :
      Ran lossy was n ⟨state, buf, .error closed⟩

theorem fillBuf_bytes (s : Socket) : s.fillBuf.2.bytes = s.bytes ∧
    s.fillBuf.2.buffered = s.fillBuf.1 ∧ (s.fillBuf.1 = [] → s.bytes = []) := by
  obtain ⟨buffered, reads⟩ := s
  by_cases held : buffered ≠ []
  · rw [Socket.fillBuf, if_pos held]
    exact ⟨rfl, rfl, fun none => absurd none held⟩
  · obtain rfl : buffered = [] := by simpa using held
    cases reads with
    | nil => exact ⟨rfl, rfl, fun _ => rfl⟩
    | cons r rs =>
        refine ⟨rfl, rfl, ?_⟩
        intro none
        exact absurd none r.2

/-- Nothing more comes. -/
theorem resume_nil {head : Bytes} {tag : UInt8} {left : Nat} {err : Bytes}
    (mid : Mid head tag left err) : resume head tag left err [] = ([], .cut) := by
  rw [resume]
  by_cases none : left = 0
  · rw [if_pos none, List.append_nil, atOnce_short mid.short]
  · have short : ([] : Bytes).length < left := Nat.pos_of_ne_zero none
    rw [if_neg none, inBody, if_pos short, ite_self]

theorem first_tells (c : CopyOut) (buf : Bytes) :
    (first c buf).tells (c.rd.fillBuf.2.reads.flatMap Subtype.val) =
      (buf ++ c.tells.1, c.tells.2) := by
  obtain ⟨same, held, -⟩ := fillBuf_bytes c.rd
  have all : c.rd.fillBuf.1 ++ c.rd.fillBuf.2.reads.flatMap Subtype.val = c.rd.bytes := by
    rw [← same, ← held]
    rfl
  rw [Scan.tells, first, tells, all]

/-- What a scan has not used is what the socket still has. -/
theorem consume_bytes {s : Socket} {w : Bytes} (suffix : w <:+ s.buffered) :
    (s.consume (s.buffered.length - w.length)).bytes = w ++ s.reads.flatMap Subtype.val := by
  rw [Socket.bytes, Socket.consume, ← List.suffix_iff_eq_drop.mp suffix]

/-- The bytes behind a window's scan. -/
theorem behind_bytes (c : CopyOut) (buf : Bytes) {r : Scan} (suffix : r.w <:+ (first c buf).w) :
    (c.behind r).rd.bytes = r.w ++ c.rd.fillBuf.2.reads.flatMap Subtype.val := by
  obtain ⟨-, held, -⟩ := fillBuf_bytes c.rd
  have rest := consume_bytes (s := c.rd.fillBuf.2) (w := r.w) (held ▸ suffix)
  rw [held] at rest
  exact rest

/-- A scan that used some of its window leaves fewer bytes. -/
theorem behind_fewer {r : Scan} (suffix : r.w <:+ (first c buf).w)
    (fewer : r.w.length < (first c buf).w.length) :
    (c.behind r).rd.bytes.length < c.rd.bytes.length := by
  obtain ⟨same, held, -⟩ := fillBuf_bytes c.rd
  have total : c.rd.bytes = (first c buf).w ++ c.rd.fillBuf.2.reads.flatMap Subtype.val := by
    rw [← same, Socket.bytes, held]
    rfl
  rw [behind_bytes c buf suffix, total, List.length_append, List.length_append]
  omega

/-- A scan that goes on leaves what was to come, but for what it put into the buffer. -/
theorem behind_tells {r : Scan} (goes : Goes (first c buf) r) :
    (r.buf ++ (c.behind r).tells.1, (c.behind r).tells.2) = (buf ++ c.tells.1, c.tells.2) := by
  rw [tells, behind_bytes c buf goes.suffix, ← first_tells]
  exact goes.same _

theorem failing_ran {was : Bytes × Ending} {n : Nat} {e : Error}
    (same : (∃ body, e = parseError lossy body ∧ was = (buf, .failed body c.rd.bytes)) ∨
      was = (buf, .refused e c.rd.bytes)) : Ran lossy was n (c.failing buf e) := by
  rw [failing]
  cases drains : drainToReady (c.rd.bytes.length + 1) c.rd.bytes with
  | error e' =>
      have is : e' = drained e c.rd.bytes := by
        rw [drained, drains]
      rw [is]
      exact .stopped same
  | ok rest =>
      have is : e = drained e c.rd.bytes := by
        rw [drained, drains]
      dsimp only
      have stopped : Ran lossy was n ⟨{ c with rd := ⟨rest, []⟩, eof := true }, buf,
          .error (drained e c.rd.bytes)⟩ := .stopped same
      rw [← is] at stopped
      exact stopped

/-- Windows leave what was to come, and stop where the bytes do. -/
theorem windows_ran {fuel n : Nat} (enough : c.rd.bytes.length < fuel) (le : c.rd.bytes.length ≤ n)
    (mid : Mid c.head c.tag c.left c.err) (going : c.eof = false) :
    Ran lossy (buf ++ c.tells.1, c.tells.2) n (windows lossy target fuel c buf) := by
  induction fuel generalizing c buf with
  | zero => exact absurd enough (Nat.not_lt_zero _)
  | succ fuel ih =>
      rw [windows]
      by_cases empty : c.rd.fillBuf.1 = []
      · obtain ⟨-, -, nothing⟩ := fillBuf_bytes c.rd
        rw [if_pos empty]
        apply Ran.cut
        rw [tells, nothing empty, resume_nil mid, List.append_nil]
      · have spec : (Goes (first c buf) (Scan.loop lossy target (c.rd.fillBuf.1.length + 1)
              (first c buf)) ∧ _) ∨ Halts lossy (first c buf) _ :=
          loop_spec (Nat.lt_succ_self _) empty mid ⟨rfl, rfl⟩
        rw [if_neg empty]
        generalize Scan.loop lossy target (c.rd.fillBuf.1.length + 1) (first c buf) = r at spec ⊢
        dsimp only
        rcases spec with ⟨goes, stops⟩ | halts
        · have told := behind_tells goes
          have fewer := behind_fewer goes.suffix goes.fewer
          rw [goes.open_.2, goes.open_.1]
          dsimp only
          rw [if_neg Bool.false_ne_true]
          by_cases reached : target ≤ r.buf.length
          · rw [if_pos reached]
            exact .more goes.mid going (by omega) told.symm
          · rw [if_neg reached, ← told]
            apply ih
            · omega
            · omega
            · exact goes.mid
            · exact going
        · have bytes := behind_bytes c buf halts.suffix
          have begins := first_tells c buf
          rcases halts.tells with ⟨done, none, ends⟩ | ⟨body, fail, ends⟩ | ⟨e, fail, ends⟩
          · rw [none, done]
            dsimp only
            rw [if_pos rfl]
            apply Ran.ready rfl
            rw [← begins, ends, ← bytes]
          · rw [fail]
            apply failing_ran
            refine .inl ⟨body, rfl, ?_⟩
            rw [← begins, ends, bytes]
          · rw [fail]
            apply failing_ran
            refine .inr ?_
            rw [← begins, ends, bytes]

/-! ## All calls -/

/-- The result of the last call. -/
def verdict (lossy : Lossy) : Ending → Except Error Bool
  | .ready _ => .ok false
  | .failed body rest => .error (drained (parseError lossy body) rest)
  | .refused e rest => .error (drained e rest)
  | .cut => .error closed

/-- Calls deliver the payload that was to come, end as the bytes do, and leave what is behind a
ReadyForQuery. -/
theorem session_ran {targets : Nat → Nat} {fuel i : Nat} (enough : c.rd.bytes.length + 1 < fuel)
    (mid : Mid c.head c.tag c.left c.err) (going : c.eof = false) :
    ∃ last, session lossy targets fuel i c = (c.tells.1, some (verdict lossy c.tells.2), last) ∧
      ∀ rest, c.tells.2 = .ready rest → last.rd.bytes = rest := by
  induction fuel generalizing c i with
  | zero => exact absurd enough (Nat.not_lt_zero _)
  | succ fuel ih =>
      have call : Ran lossy c.tells c.rd.bytes.length (copyOutNext lossy (targets i) c) := by
        have ran : Ran lossy ([] ++ c.tells.1, c.tells.2) c.rd.bytes.length
            (windows lossy (targets i) (c.rd.bytes.length + 1) c []) :=
          windows_ran (Nat.lt_succ_self _) le_rfl mid going
        rw [copyOutNext, going, if_neg Bool.false_ne_true]
        exact ran
      rw [session]
      generalize copyOutNext lossy (targets i) c = called at call ⊢
      generalize c.tells = was at call ⊢
      cases call with
      | @more state buf mid on fewer same =>
          have rest : ∃ last, session lossy targets fuel (i + 1) state =
              (state.tells.1, some (verdict lossy state.tells.2), last) ∧
              ∀ rest, state.tells.2 = .ready rest → last.rd.bytes = rest :=
            ih (by omega) mid on
          obtain ⟨last, runs, ends⟩ := rest
          refine ⟨last, ?_, ?_⟩
          · dsimp only
            rw [same, runs]
          · rw [same]
            exact ends
      | @ready state buf ended same =>
          subst same
          refine ⟨state, ?_, ?_⟩
          · by_cases empty : buf = []
            · simp [empty, verdict]
            · cases fuel with
              | zero => omega
              | succ fuel => simp [empty, verdict, session, copyOutNext, ended]
          · intro rest is
            cases is
            rfl
      | @stopped state buf rest e same =>
          rcases same with ⟨body, rfl, rfl⟩ | rfl
          · exact ⟨state, rfl, fun rest is => (by cases is)⟩
          · exact ⟨state, rfl, fun rest is => (by cases is)⟩
      | @cut state buf same =>
          subst same
          exact ⟨state, rfl, fun rest is => (by cases is)⟩

end CopyOut

end Apitap.Walsender
