import Apitap.Wire.CopyStream

/-!
# Stripping a span's framing

The raw binary passthrough drops a span's header and withholds its last two bytes, so that
a worker may join several spans under one header and one trailer. The withheld bytes also
decide whether the span ended: they equal the trailer. What has been relayed is a function
of the bytes read so far, and not of how they were cut.
-/

namespace Apitap

open Copy

/-- The fixed header read so far, the extension bytes still to skip, the bytes held back. -/
@[ext] structure SpanStrip where
  hdr : Bytes
  skip : Nat
  pending : Bytes
  hdr_le : hdr.length ≤ 19
  pending_le : pending.length ≤ 2

namespace SpanStrip

def new : SpanStrip := ⟨[], 0, [], by decide, by decide⟩

/-- Body relay with a 2-byte holdback: what goes out and what is held back. -/
def relay (pending b : Bytes) : Bytes × Bytes :=
  match b with
  | [] => ([], pending)
  | [x] =>
      if pending.length = 2 then (pending.take 1, pending.drop 1 ++ [x])
      else ([], pending ++ [x])
  | b => (pending ++ b.take (b.length - 2), b.drop (b.length - 2))

theorem relay_le {pending : Bytes} (le : pending.length ≤ 2) (b : Bytes) :
    (relay pending b).2.length ≤ 2 := by
  unfold relay
  split
  · exact le
  · split
    · rw [List.length_append, List.length_drop, List.length_singleton]
      omega
    · rw [List.length_append, List.length_singleton]
      omega
  · rw [List.length_drop]
    omega

/-- The part of `push` after the fixed header: skip the extension, relay the body. -/
def body (s : SpanStrip) (b : Bytes) : SpanStrip × Bytes :=
  let take := if 0 < s.skip then min s.skip b.length else 0
  let relayed := relay s.pending (b.drop take)
  ({ s with skip := s.skip - take, pending := relayed.2, pending_le := relay_le s.pending_le _ },
    relayed.1)

def push (s : SpanStrip) (b : Bytes) : Except Error (SpanStrip × Bytes) :=
  if s.hdr.length < 19 then
    let take := min (19 - s.hdr.length) b.length
    let hdr := s.hdr ++ b.take take
    have hdr_le : hdr.length ≤ 19 := by
      have le := s.hdr_le
      rw [List.length_append, List.length_take]
      omega
    if hdr.length < 19 then .ok ({ s with hdr, hdr_le }, [])
    else if hdr.take 11 ≠ signature then .error (.transfer "pg binary COPY: bad header")
    else .ok (body { s with hdr, hdr_le, skip := fromBe (hdr.drop 15) } (b.drop take))
  else .ok (body s b)

/-- Did the span end exactly on the 2-byte trailer? -/
def finished (s : SpanStrip) : Bool :=
  s.hdr.length = 19 && s.skip = 0 && s.pending.length = 2 && s.pending = trailer

/-- Chunk after chunk, with all that went out. -/
def pushes (s : SpanStrip) : List Bytes → Except Error (SpanStrip × Bytes)
  | [] => .ok (s, [])
  | c :: cs => (s.push c).bind fun (s, out) =>
      (pushes s cs).map fun (s, later) => (s, out ++ later)

/-! ## What the bytes read so far leave -/

/-- All but the last two bytes. -/
def relayed (x : Bytes) : Bytes := x.take (x.length - 2)

/-- The last two bytes. -/
def held (x : Bytes) : Bytes := x.drop (x.length - 2)

theorem held_le (x : Bytes) : (held x).length ≤ 2 := by
  rw [held, List.length_drop]
  omega

/-- The bytes after a fixed header, read under its extension length. -/
def opened (hdr rest : Bytes) (hdr_le : hdr.length ≤ 19) : SpanStrip × Bytes :=
  let ext := fromBe (hdr.drop 15)
  (⟨hdr, ext - rest.length, held (rest.drop ext), hdr_le, held_le _⟩, relayed (rest.drop ext))

/-- The state and the output once `w` has been read. -/
def reached (w : Bytes) : Except Error (SpanStrip × Bytes) :=
  if short : w.length < 19 then .ok (⟨w, 0, [], short.le, by decide⟩, [])
  else if w.take 11 ≠ signature then .error (.transfer "pg binary COPY: bad header")
  else .ok (opened (w.take 19) (w.drop 19) (by rw [List.length_take]; omega))

theorem relay_held (x b : Bytes) :
    relayed x ++ (relay (held x) b).1 = relayed (x ++ b) ∧
      (relay (held x) b).2 = held (x ++ b) := by
  match b with
  | [] => simp [relay]
  | [c] =>
      rcases Nat.lt_or_ge x.length 2 with short | long
      · have all : x.length - 2 = 0 := by omega
        have still : x.length + 1 - 2 = 0 := by omega
        have keep : x.length ≠ 2 := by omega
        simp [relay, relayed, held, all, still, keep]
      · have two : x.length - (x.length - 2) = 2 := by omega
        have next : x.length + 1 - 2 = (x.length - 2) + 1 := by omega
        have within : x.length - 2 + 1 ≤ x.length := by omega
        simp [relay, relayed, held, two, next, List.take_append_of_le_length within,
          List.drop_append_of_le_length within, List.take_add]
  | c :: d :: b =>
      have past : x.length + (b.length + 1 + 1) - 2 = x.length + b.length := by omega
      have whole : x.take (x.length + b.length) = x := List.take_of_length_le (Nat.le_add_right _ _)
      have none : x.drop (x.length + b.length) = [] := List.drop_of_length_le (Nat.le_add_right _ _)
      have front := List.take_append_drop (x.length - 2) x
      simp [relay, relayed, held, past, List.take_append, List.drop_append, whole, none,
        ← List.append_assoc, front]

/-- How much of `b` the extension still takes. -/
theorem body_eq (s : SpanStrip) (b : Bytes) :
    (s.body b).1.hdr = s.hdr ∧ (s.body b).1.skip = s.skip - b.length ∧
      ((s.body b).2, (s.body b).1.pending) = relay s.pending (b.drop s.skip) := by
  have taken : (if 0 < s.skip then min s.skip b.length else 0) = min s.skip b.length := by
    split <;> omega
  have left : b.drop (min s.skip b.length) = b.drop s.skip := by
    rcases Nat.le_total s.skip b.length with le | le
    · rw [Nat.min_eq_left le]
    · rw [Nat.min_eq_right le, List.drop_length, List.drop_of_length_le le]
  refine ⟨rfl, ?_, ?_⟩
  · simp only [body, taken]
    omega
  · simp only [body, taken, left]

/-- Bytes after the fixed header take the state further. -/
theorem body_opened (hdr rest b : Bytes) (hdr_le : hdr.length ≤ 19) :
    (((opened hdr rest hdr_le).1.body b).1,
      (opened hdr rest hdr_le).2 ++ ((opened hdr rest hdr_le).1.body b).2) =
        opened hdr (rest ++ b) hdr_le := by
  obtain ⟨same, skipped, went⟩ := body_eq (opened hdr rest hdr_le).1 b
  obtain ⟨out, kept⟩ := relay_held (rest.drop (fromBe (hdr.drop 15)))
    (b.drop (fromBe (hdr.drop 15) - rest.length))
  obtain ⟨out_eq, pending_eq⟩ := Prod.mk.inj went
  rw [← List.drop_append] at out kept
  refine Prod.ext (SpanStrip.ext same ?_ ?_) ?_
  · have further : (opened hdr rest hdr_le).1.skip - b.length =
        (opened hdr (rest ++ b) hdr_le).1.skip := by
      simp only [opened, List.length_append]
      omega
    exact skipped.trans further
  · exact pending_eq.trans kept
  · exact (congrArg _ out_eq).trans out

theorem opened_nil (hdr : Bytes) (hdr_le : hdr.length ≤ 19) :
    opened hdr [] hdr_le = (⟨hdr, fromBe (hdr.drop 15), [], hdr_le, by decide⟩, []) := by
  simp [opened, held, relayed]

theorem reached_open {w : Bytes} (long : 19 ≤ w.length) (signed : w.take 11 = signature) :
    reached w = .ok (opened (w.take 19) (w.drop 19) (by rw [List.length_take]; omega)) := by
  rw [reached, dif_neg (Nat.not_lt.mpr long), if_neg (not_not_intro signed)]

/-- A push with the fixed header still open, by all the bytes there are then. -/
theorem push_header {s : SpanStrip} (short : s.hdr.length < 19) (b : Bytes) :
    s.push b =
      if still : (s.hdr ++ b).length < 19 then
        .ok ({ s with hdr := s.hdr ++ b, hdr_le := still.le }, [])
      else if (s.hdr ++ b).take 11 ≠ signature then
        .error (.transfer "pg binary COPY: bad header")
      else .ok (body { s with
          hdr := (s.hdr ++ b).take 19
          hdr_le := by rw [List.length_take]; omega
          skip := fromBe (((s.hdr ++ b).take 19).drop 15) } ((s.hdr ++ b).drop 19)) := by
  rw [push, if_pos short]
  rcases Nat.lt_or_ge (s.hdr ++ b).length 19 with still | now
  · have all : b.take (min (19 - s.hdr.length) b.length) = b := by
      rw [List.length_append] at still
      rw [Nat.min_eq_right (by omega), List.take_length]
    simp only [all, still, ↓reduceIte, ↓reduceDIte]
  · have room : min (19 - s.hdr.length) b.length = 19 - s.hdr.length := by
      rw [List.length_append] at now
      omega
    have filled : s.hdr ++ b.take (19 - s.hdr.length) = (s.hdr ++ b).take 19 := by
      rw [List.take_append, List.take_of_length_le short.le]
    have after : b.drop (19 - s.hdr.length) = (s.hdr ++ b).drop 19 := by
      rw [List.drop_append, List.drop_of_length_le short.le, List.nil_append]
    have nineteen : ((s.hdr ++ b).take 19).length = 19 := by
      rw [List.length_take, Nat.min_eq_left now]
    have sign : ((s.hdr ++ b).take 19).take 11 = (s.hdr ++ b).take 11 := by
      rw [List.take_take, Nat.min_eq_left (by decide)]
    simp only [room, filled, after, nineteen, sign, lt_irrefl, Nat.not_lt.mpr now, ↓reduceIte,
      ↓reduceDIte]

/-- One push takes what has been read to what has been read and pushed. -/
theorem push_reached {w b : Bytes} {s : SpanStrip} {out : Bytes}
    (here : reached w = .ok (s, out)) :
    (s.push b).map (fun (s, more) => (s, out ++ more)) = reached (w ++ b) := by
  unfold reached at here
  split at here
  case isTrue short =>
      obtain ⟨rfl, rfl⟩ := Prod.mk.inj (Except.ok.inj here)
      rw [push_header short, reached]
      split
      · rfl
      · split
        · rfl
        · rename_i long _
          have start := body_opened ((w ++ b).take 19) [] ((w ++ b).drop 19)
            (by rw [List.length_take]; omega)
          rw [opened_nil, List.nil_append] at start
          exact congrArg Except.ok start
  case isFalse long =>
      split at here
      · cases here
      case isFalse signed =>
          have le : 19 ≤ w.length := Nat.not_lt.mp long
          have next := body_opened (w.take 19) (w.drop 19) b (by rw [List.length_take]; omega)
          rw [Except.ok.inj here] at next
          have nineteen : s.hdr.length = 19 := by
            rw [← congrArg (·.1.hdr.length) (Except.ok.inj here)]
            exact List.length_take_of_le le
          have signed' : (w ++ b).take 11 = signature := by
            rw [List.take_append_of_le_length (by omega), not_not.mp signed]
          rw [push, if_neg (by omega), reached_open (by rw [List.length_append]; omega) signed']
          simp only [List.take_append_of_le_length le, List.drop_append_of_le_length le]
          exact congrArg Except.ok next

/-- Once the signature is wrong it stays wrong. -/
theorem reached_error {w : Bytes} {e : Error} (bad : reached w = .error e) (b : Bytes) :
    reached (w ++ b) = .error e := by
  unfold reached at bad ⊢
  split at bad
  · cases bad
  case isFalse long =>
      split at bad
      case isTrue wrong =>
          have le : 11 ≤ w.length := by omega
          rw [dif_neg (by rw [List.length_append]; omega), List.take_append_of_le_length le,
            if_pos wrong]
          exact bad
      · cases bad

/-- What a run leaves depends on the bytes alone. -/
theorem pushes_reached {w : Bytes} {s : SpanStrip} {out : Bytes} (cs : List Bytes)
    (here : reached w = .ok (s, out)) :
    (s.pushes cs).map (fun (s, more) => (s, out ++ more)) = reached (w ++ cs.flatten) := by
  induction cs generalizing w s out with
  | nil => simp [pushes, Except.map, here]
  | cons c cs ih =>
      have one := push_reached (b := c) here
      rw [List.flatten_cons, ← List.append_assoc]
      cases pushed : s.push c with
      | error e =>
          rw [pushed] at one
          rw [reached_error one.symm, pushes, pushed]
          rfl
      | ok next =>
          rw [pushed] at one
          have rest := ih one.symm
          rw [← rest, pushes, pushed]
          obtain ⟨s, more⟩ := next
          cases ran : s.pushes cs with
          | error e => simp only [Except.map, Except.bind, ran]
          | ok last => simp only [Except.map, Except.bind, ran, List.append_assoc]

theorem pushes_new (cs : List Bytes) : new.pushes cs = reached cs.flatten := by
  have run := pushes_reached cs (show reached [] = .ok (new, []) from rfl)
  rw [List.nil_append] at run
  rw [← run]
  cases new.pushes cs <;> rfl

/-! ## Whole streams and their prefixes -/

theorem reached_fixed (h : Header) (y : Bytes) :
    reached (h.fixed ++ y) = .ok (opened h.fixed y h.length_fixed.le) := by
  have front : (h.fixed ++ y).take 19 = h.fixed := by
    rw [List.take_append_of_le_length h.length_fixed.ge, List.take_of_length_le h.length_fixed.le]
  have back : (h.fixed ++ y).drop 19 = y := by
    rw [List.drop_append_of_le_length h.length_fixed.ge, List.drop_of_length_le h.length_fixed.le,
      List.nil_append]
  rw [reached_open (by rw [List.length_append, h.length_fixed]; omega) (h.take_signature y)]
  simp only [front, back]

theorem opened_fixed (h : Header) (y : Bytes) :
    opened h.fixed y h.length_fixed.le =
      (⟨h.fixed, h.ext.length - y.length, held (y.drop h.ext.length), h.length_fixed.le,
        held_le _⟩, relayed (y.drop h.ext.length)) := by
  simp only [opened, h.fromBe_ext]

/-- A prefix that ends before the tuples leaves nothing held back. -/
theorem reached_header {h : Header} {w : Bytes} (front : w <+: h.bytes) :
    ∃ s, reached w = .ok (s, []) ∧ s.finished = false := by
  rcases Nat.lt_or_ge w.length 19 with short | long
  · refine ⟨_, by rw [reached, dif_pos short], ?_⟩
    simp [finished, short.ne]
  · obtain ⟨y, rfl⟩ : h.fixed <+: w :=
      List.prefix_of_prefix_length_le (List.prefix_append _ _) front (h.length_fixed.le.trans long)
    have within : y.drop h.ext.length = [] :=
      List.drop_of_length_le ((List.prefix_append_right_inj _).mp front).length_le
    refine ⟨_, by rw [reached_fixed, opened_fixed]; simp only [within]; rfl, ?_⟩
    simp [finished, held]

theorem held_trailer {x : Bytes} : held x = trailer ↔ trailer <:+ x := by
  rw [List.suffix_iff_eq_drop, eq_comm]
  rfl

/-- Past the header the tuples' bytes are relayed up to the last two. -/
theorem reached_body (h : Header) (x : Bytes) :
    ∃ s, reached (h.bytes ++ x) = .ok (s, relayed x) ∧
      (s.finished = true ↔ trailer <:+ x) := by
  have past : (h.ext ++ x).drop h.ext.length = x := List.drop_left
  have is : reached (h.bytes ++ x) = .ok (⟨h.fixed, h.ext.length - (h.ext ++ x).length, held x,
      h.length_fixed.le, held_le _⟩, relayed x) := by
    rw [Header.bytes, List.append_assoc, reached_fixed, opened_fixed]
    simp only [past]
  refine ⟨_, is, ?_⟩
  have two : held x = trailer → (held x).length = 2 := fun is => by rw [is]; rfl
  rw [← held_trailer]
  simp [finished]
  exact two

/-- The tuples of a whole stream go out, and the span is finished. -/
theorem pushes_stream (h : Header) (rows : List Row) {cs : List Bytes}
    (cut : cs.flatten = stream h rows) :
    ∃ s, new.pushes cs = .ok (s, tuples rows) ∧ s.finished = true := by
  obtain ⟨s, is, done⟩ := reached_body h (tuples rows ++ trailer)
  have out : relayed (tuples rows ++ trailer) = tuples rows := by
    simp [relayed, trailer]
  rw [out] at is
  exact ⟨s, by rw [pushes_new, cut]; exact is, done.mpr (List.suffix_append _ _)⟩

/-- A strict prefix is taken for a whole span where the bytes past its header end as a
trailer would. -/
theorem pushes_prefix (h : Header) (rows : List Row) {cs : List Bytes}
    (front : cs.flatten <+: stream h rows) :
    ∃ s out, new.pushes cs = .ok (s, out) ∧
      (s.finished = true ↔ ∃ x, cs.flatten = h.bytes ++ x ∧ trailer <:+ x) := by
  rw [pushes_new]
  rcases Nat.le_total cs.flatten.length h.bytes.length with short | long
  · have within : cs.flatten <+: h.bytes :=
      List.prefix_of_prefix_length_le front (List.prefix_append _ _) short
    obtain ⟨s, is, open_⟩ := reached_header within
    refine ⟨s, [], is, ?_⟩
    rw [open_]
    constructor
    · rintro ⟨⟩
    · rintro ⟨x, whole, ends⟩
      have len := congrArg List.length whole
      have two : 2 ≤ x.length := ends.length_le
      rw [List.length_append] at len
      omega
  · obtain ⟨x, is⟩ : h.bytes <+: cs.flatten :=
      List.prefix_of_prefix_length_le (List.prefix_append _ _) front long
    obtain ⟨s, reads, done⟩ := reached_body h x
    refine ⟨s, relayed x, by rw [← is]; exact reads, ?_⟩
    rw [done, ← is]
    constructor
    · exact fun ends => ⟨x, rfl, ends⟩
    · rintro ⟨y, same, ends⟩
      rw [List.append_cancel_left same]
      exact ends

/-- Whole spans only: a stream goes out as its tuples and is finished, and no strict prefix
of it is, however either is cut. -/
def WholeSpansOnly (h : Header) (rows : List Row) : Prop :=
  (∀ cs : List Bytes, cs.flatten = stream h rows →
    ∃ s, new.pushes cs = .ok (s, tuples rows) ∧ s.finished = true) ∧
  ∀ cs : List Bytes, cs.flatten <+: stream h rows → cs.flatten ≠ stream h rows →
    ∃ s out, new.pushes cs = .ok (s, out) ∧ s.finished = false

/-- A stream is safe from being cut short where its tuples hold no two bytes `FF` in a row
and do not end in one. -/
theorem wholeSpansOnly_iff (h : Header) (rows : List Row) :
    WholeSpansOnly h rows ↔ ¬ trailer <:+: tuples rows ++ [0xFF] := by
  have last : stream h rows = (h.bytes ++ (tuples rows ++ [0xFF])) ++ [0xFF] := by
    simp [stream, trailer]
  constructor
  · rintro ⟨-, early⟩ here
    obtain ⟨x, ends, front⟩ := List.infix_iff_suffix_prefix.mp here
    have cut : h.bytes ++ x <+: h.bytes ++ (tuples rows ++ [0xFF]) :=
      (List.prefix_append_right_inj _).mpr front
    have strict : h.bytes ++ x ≠ stream h rows := by
      intro same
      have le := cut.length_le
      rw [same, last, List.length_append] at le
      simp at le
    have within : [h.bytes ++ x].flatten <+: stream h rows := by
      rw [List.flatten_singleton, last]
      exact cut.trans (List.prefix_append _ _)
    obtain ⟨s, out, is, open_⟩ := early [h.bytes ++ x] within (by rwa [List.flatten_singleton])
    obtain ⟨s', out', is', done⟩ := pushes_prefix h rows within
    rw [is] at is'
    obtain ⟨rfl, rfl⟩ := Prod.mk.inj (Except.ok.inj is')
    rw [done.mpr ⟨x, List.flatten_singleton, ends⟩] at open_
    cases open_
  · intro clear
    refine ⟨fun cs cut => pushes_stream h rows cut, fun cs front strict => ?_⟩
    obtain ⟨s, out, is, done⟩ := pushes_prefix h rows front
    refine ⟨s, out, is, Bool.eq_false_iff.mpr fun finished => clear ?_⟩
    obtain ⟨x, whole, ends⟩ := done.mp finished
    rw [last, List.prefix_concat_iff, ← last, or_iff_right strict, whole,
      List.prefix_append_right_inj] at front
    exact List.infix_iff_suffix_prefix.mpr ⟨x, ends, front⟩

namespace Early

/-- No flags, no extension. -/
def plain : Header := ⟨[0, 0, 0, 0], [], rfl, by decide⟩

/-- One column, NULL. -/
def null : Row := ⟨[none], by decide, by simp⟩

/-- The stream without its trailer. -/
def cut : Bytes := plain.bytes ++ tuples [null]

/-- A span that lost its trailer is taken for a complete one, with half of the NULL's length
word gone. -/
theorem null_is_a_trailer : ¬ WholeSpansOnly plain [null] := by
  rintro ⟨-, early⟩
  obtain ⟨s, out, is, open_⟩ := early [cut] (by decide) (by decide)
  have ran : (new.pushes [cut]).map (fun (s, out) => (s.finished, out)) =
      .ok (true, [0x00, 0x01, 0xFF, 0xFF]) := by
    decide
  rw [is] at ran
  rw [(Prod.mk.inj (Except.ok.inj ran)).1] at open_
  cases open_

end Early

end SpanStrip

end Apitap
