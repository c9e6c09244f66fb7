import Apitap.Wire.BinlogCell

/-!
# The MySQL packet layer

A payload goes out in packets of at most 2²⁴ − 1 bytes, each with a length and a sequence
number that wraps; the last one is shorter than the limit, so that a payload of a multiple of
it ends in an empty packet. A reader puts them together again.
-/

namespace Apitap.MyWire

open Copy (be)
open Rows (fromLe)

/-- The longest body of a packet. -/
def limit : Nat := 0xFFFFFF

def maxPayload : Nat := 2 ^ 30

def desync (what : String) : Error := .transfer ("mysql wire: unexpected " ++ what)

/-- What `read_exact` says of a stream that ends. -/
def earlyEof : Error := .transfer "mysql wire: early eof"

def readExact (n : Nat) (b : Bytes) : Except Error (Bytes × Bytes) :=
  if b.length < n then .error earlyEof else .ok (b.take n, b.drop n)

/-- A packet's header: the length in three bytes, the sequence number. -/
def head (n : Nat) (seq : UInt8) : Bytes := (be 3 n).reverse ++ [seq]

/-- The packets of a payload, and the next sequence number. -/
def writePacket : Nat → UInt8 → Bytes → List Bytes × UInt8
  | 0, seq, _ => ([], seq)
  | fuel + 1, seq, rest =>
      let n := min rest.length limit
      let packet := head n seq ++ rest.take n
      let seq := seq + 1
      let rest := rest.drop n
      if rest = [] ∧ n < limit then ([packet], seq)
      else if rest = [] ∧ n = limit then ([packet, head 0 seq], seq + 1)
      else
        let more := writePacket fuel seq rest
        (packet :: more.1, more.2)

/-- A payload off the stream behind `buf`: the payload, the next sequence number, the rest. -/
def readPacket : Nat → UInt8 → Bytes → Bytes → Except Error (Bytes × UInt8 × Bytes)
  | 0, _, _, _ => .error earlyEof
  | fuel + 1, seq, buf, b =>
      (readExact 4 b).bind fun (h, b) =>
        let len := fromLe (h.take 3)
        if h.drop 3 ≠ [seq] then .error (desync "packet sequence")
        else
          let seq := seq + 1
          if maxPayload < buf.length + len then
            .error (desync "payload past max_allowed_packet")
          else
            (readExact len b).bind fun (part, b) =>
              if len < limit then .ok (buf ++ part, seq, b)
              else readPacket fuel seq (buf ++ part) b

/-- All packets of a payload; every one but the last takes a byte at least. -/
def emit (seq : UInt8) (payload : Bytes) : List Bytes × UInt8 :=
  writePacket (payload.length + 1) seq payload

/-- A payload from the front of a stream. -/
def receive (seq : UInt8) (b : Bytes) : Except Error (Bytes × UInt8 × Bytes) :=
  readPacket (b.length + 1) seq [] b

variable {fuel n : Nat} {seq : UInt8} {buf rest x : Bytes}

@[simp] theorem length_head : (head n seq).length = 4 := by
  rw [head, List.length_append, List.length_reverse, Copy.length_be]
  rfl

theorem readExact_append {p : Bytes} (length : p.length = n) :
    readExact n (p ++ x) = .ok (p, x) := by
  have long : ¬ (p ++ x).length < n := by
    rw [List.length_append]
    omega
  rw [readExact, if_neg long, ← length, List.take_left, List.drop_left]

theorem head_reads (small : n < 2 ^ 24) :
    fromLe ((head n seq).take 3) = n ∧ (head n seq).drop 3 = [seq] := by
  have three : (be 3 n).reverse.length = 3 := by rw [List.length_reverse, Copy.length_be]
  constructor
  · rw [head, List.take_append_of_le_length three.ge, List.take_of_length_le three.le, fromLe,
      List.reverse_reverse, Copy.fromBe_be (by omega)]
  · rw [head, List.drop_append_of_le_length three.ge, List.drop_of_length_le three.le]
    rfl

/-- One packet read: the end of a payload, or its next part. -/
theorem readPacket_packet {part : Bytes} (length : part.length = n) (small : n ≤ limit)
    (room : buf.length + n ≤ maxPayload) :
    readPacket (fuel + 1) seq buf (head n seq ++ (part ++ x)) =
      if n < limit then .ok (buf ++ part, seq + 1, x)
      else readPacket fuel (seq + 1) (buf ++ part) x := by
  have reads : fromLe ((head n seq).take 3) = n ∧ (head n seq).drop 3 = [seq] := by
    apply head_reads
    rw [limit] at small
    omega
  obtain ⟨len, sequence⟩ := reads
  rw [readPacket, readExact_append length_head]
  simp only [Except.bind, len, sequence]
  rw [if_neg (fun no => no rfl), if_neg (Nat.not_lt.mpr room), readExact_append length]

theorem limit_pos : 0 < limit := by decide

/-- The packets of a payload that fits in one. -/
theorem writePacket_short (short : rest.length < limit) :
    writePacket (fuel + 1) seq rest = ([head rest.length seq ++ rest], seq + 1) := by
  have whole : min rest.length limit = rest.length := Nat.min_eq_left short.le
  rw [writePacket, whole]
  dsimp only
  rw [List.drop_length, List.take_length, if_pos ⟨rfl, short⟩]

/-- A payload of the limit is followed by an empty packet. -/
theorem writePacket_full (full : rest.length = limit) :
    writePacket (fuel + 1) seq rest =
      ([head limit seq ++ rest, head 0 (seq + 1)], seq + 1 + 1) := by
  rw [writePacket, full, Nat.min_self]
  dsimp only
  rw [← full, List.drop_length, List.take_length, if_neg (fun no => Nat.lt_irrefl _ no.2),
    if_pos ⟨rfl, rfl⟩]

/-- A longer payload is cut at the limit. -/
theorem writePacket_long (long : limit < rest.length) :
    writePacket (fuel + 1) seq rest =
      ((head limit seq ++ rest.take limit) ::
        (writePacket fuel (seq + 1) (rest.drop limit)).1,
        (writePacket fuel (seq + 1) (rest.drop limit)).2) := by
  have more : rest.drop limit ≠ [] := by
    intro none
    have length := congrArg List.length none
    rw [List.length_drop, List.length_nil] at length
    omega
  rw [writePacket, Nat.min_eq_right long.le]
  dsimp only
  rw [if_neg (fun no => more no.1), if_neg (fun no => more no.1)]

/-- What is written is read back. -/
theorem readPacket_written {g : Nat} (enough : rest.length < fuel) (also : rest.length < g)
    (room : buf.length + rest.length ≤ maxPayload) :
    readPacket g seq buf ((writePacket fuel seq rest).1.flatten ++ x) =
      .ok (buf ++ rest, (writePacket fuel seq rest).2, x) := by
  induction fuel generalizing seq buf rest g with
  | zero => exact absurd enough (Nat.not_lt_zero _)
  | succ fuel ih =>
      have positive := limit_pos
      obtain ⟨g, rfl⟩ : ∃ k, g = k + 1 := ⟨g - 1, by omega⟩
      rcases lt_trichotomy rest.length limit with short | full | long
      · rw [writePacket_short short, List.flatten_singleton, List.append_assoc,
          readPacket_packet rfl short.le room, if_pos short]
      · obtain ⟨g, rfl⟩ : ∃ k, g = k + 1 := ⟨g - 1, by omega⟩
        have room' : (buf ++ rest).length + 0 ≤ maxPayload := by
          rw [List.length_append]
          exact room
        have last : readPacket (g + 1) (seq + 1) (buf ++ rest) (head 0 (seq + 1) ++ x) =
            .ok (buf ++ rest, seq + 1 + 1, x) := by
          have empty : ([] : Bytes).length = 0 := rfl
          have read : readPacket (g + 1) (seq + 1) (buf ++ rest)
              (head 0 (seq + 1) ++ ([] ++ x)) = _ :=
            readPacket_packet empty (Nat.zero_le _) room'
          rw [if_pos positive, List.append_nil, List.nil_append] at read
          exact read
        rw [writePacket_full full, List.flatten_cons, List.flatten_singleton, List.append_assoc,
          List.append_assoc, readPacket_packet full (Nat.le_refl _) (full ▸ room),
          if_neg (Nat.lt_irrefl _), last]
      · have size : (rest.take limit).length = limit := by
          rw [List.length_take, Nat.min_eq_left long.le]
        have fewer : (rest.drop limit).length < fuel := by
          rw [List.length_drop]
          omega
        have fewer' : (rest.drop limit).length < g := by
          rw [List.length_drop]
          omega
        have room' : (buf ++ rest.take limit).length + (rest.drop limit).length ≤ maxPayload := by
          rw [List.length_append, size, List.length_drop]
          omega
        rw [writePacket_long long, List.flatten_cons, List.append_assoc, List.append_assoc,
          readPacket_packet size (Nat.le_refl _) (by omega), if_neg (Nat.lt_irrefl _),
          ih fewer fewer' room', List.append_assoc, List.take_append_drop]

/-- One packet for each limit in the length, and the last. -/
theorem length_writePacket (enough : rest.length < fuel) :
    (writePacket fuel seq rest).1.length = rest.length / limit + 1 := by
  induction fuel generalizing seq rest with
  | zero => exact absurd enough (Nat.not_lt_zero _)
  | succ fuel ih =>
      have positive := limit_pos
      rcases lt_trichotomy rest.length limit with short | full | long
      · rw [writePacket_short short, Nat.div_eq_of_lt short]
        rfl
      · rw [writePacket_full full, full, Nat.div_self positive]
        rfl
      · have fewer : (rest.drop limit).length < fuel := by
          rw [List.length_drop]
          omega
        have step : rest.length / limit = (rest.length - limit) / limit + 1 :=
          Nat.div_eq_sub_div positive long.le
        rw [writePacket_long long, List.length_cons, ih fewer, List.length_drop, step]

/-- The sequence number goes up by the packets, and wraps. -/
theorem seq_writePacket :
    (writePacket fuel seq rest).2 = seq + UInt8.ofNat (writePacket fuel seq rest).1.length := by
  induction fuel generalizing seq rest with
  | zero => exact (UInt8.add_zero seq).symm
  | succ fuel ih =>
      rcases lt_trichotomy rest.length limit with short | full | long
      · rw [writePacket_short short]
        rfl
      · rw [writePacket_full full, UInt8.add_assoc]
        rfl
      · rw [writePacket_long long, ih, List.length_cons, UInt8.add_assoc, UInt8.ofNat_add,
          UInt8.add_comm (UInt8.ofNat _)]
        rfl

/-- The packets hold the payload. -/
theorem length_le_written (enough : rest.length < fuel) :
    rest.length ≤ (writePacket fuel seq rest).1.flatten.length := by
  induction fuel generalizing seq rest with
  | zero => exact absurd enough (Nat.not_lt_zero _)
  | succ fuel ih =>
      have positive := limit_pos
      rcases lt_trichotomy rest.length limit with short | full | long
      · rw [writePacket_short short, List.flatten_singleton, List.length_append]
        exact Nat.le_add_left _ _
      · rw [writePacket_full full, List.flatten_cons, List.length_append, List.length_append]
        omega
      · have rest_le : (rest.drop limit).length ≤
            (writePacket fuel (seq + 1) (rest.drop limit)).1.flatten.length := by
          apply ih
          rw [List.length_drop]
          omega
        rw [List.length_drop] at rest_le
        rw [writePacket_long long, List.flatten_cons, List.length_append, List.length_append,
          List.length_take]
        omega

/-- Whatever stands behind them, the packets of a payload are read back as it, and both sides
are on the same sequence number. -/
theorem receive_emit (seq : UInt8) (payload x : Bytes) (fits : payload.length ≤ maxPayload) :
    receive seq ((emit seq payload).1.flatten ++ x) = .ok (payload, (emit seq payload).2, x) ∧
      (emit seq payload).1.length = payload.length / limit + 1 ∧
        (emit seq payload).2 = seq + UInt8.ofNat (emit seq payload).1.length := by
  have enough : payload.length < payload.length + 1 := Nat.lt_succ_self _
  refine ⟨?_, length_writePacket enough, seq_writePacket⟩
  apply readPacket_written enough
  · have le : payload.length ≤
        (writePacket (payload.length + 1) seq payload).1.flatten.length := length_le_written enough
    rw [List.length_append]
    show payload.length < (writePacket (payload.length + 1) seq payload).1.flatten.length + _ + 1
    omega
  · rw [List.length_nil, Nat.zero_add]
    exact fits

end Apitap.MyWire
