import Apitap.Wire.FrameScanner

/-!
# COPY OUT over windows

The payload of CopyData messages is appended to a buffer, window by window of what the socket
gives: headers and bodies may be cut anywhere, and what is left of them is carried over. A call
returns with a filled buffer, at the end of the COPY, or with the server's error. How the
bytes of an error's fields become text is a parameter.
-/

namespace Apitap.Walsender

open Foundation
open Copy (fromBe)

/-- `String::from_utf8_lossy`. -/
abbrev Lossy := Bytes → String

/-- The code and the text among an error's fields. -/
def errorFields (lossy : Lossy) : Nat → Bytes → String × String → String × String
  | 0, _, found => found
  | _ + 1, [], found => found
  | fuel + 1, t :: rest, (code, text) =>
      if t = 0 then (code, text)
      else if 0 ∉ rest then (code, text)
      else
        let v := lossy (rest.takeWhile (· ≠ 0))
        errorFields lossy fuel ((rest.dropWhile (· ≠ 0)).drop 1)
          (if t = 67 then (v, text) else if t = 77 then (code, v) else (code, text))

def parseError (lossy : Lossy) (msg : Bytes) : Error :=
  let (code, text) := errorFields lossy msg.length msg ("", "")
  .transfer ("walsender: server error " ++ code ++ ": " ++ text)

/-! ## The socket -/

/-- What a buffered reader holds, and what its reads will give. -/
structure Socket where
  buffered : Bytes
  reads : List Chunk

namespace Socket

variable (s : Socket)

def bytes : Bytes := s.buffered ++ s.reads.flatMap Subtype.val

/-- The buffer, filled by a read where it is empty. -/
def fillBuf : Bytes × Socket :=
  if s.buffered ≠ [] then (s.buffered, s)
  else
    match s.reads with
    | [] => ([], s)
    | c :: cs => (c.1, ⟨c.1, cs⟩)

def consume (n : Nat) : Socket := { s with buffered := s.buffered.drop n }

end Socket

/-! ## Draining after an error -/

def closedMidStream : Error :=
  .transfer ("postgres closed " ++ "the connection mid-stream — a server restart, a " ++
    "pg_terminate_backend, an idle/statement timeout, or a dropped network path. Nothing was " ++
    "committed at the destination (bulk loads swap only at the end, and a CDC watermark " ++
    "advances only with its data), so re-running is safe and is the recovery.")

/-- One message off a socket: the message, the bytes behind it. -/
def readFrame (b : Bytes) : Except Error (Message × Bytes) :=
  if b.length < 5 then .error closedMidStream
  else
    let len := fromBe ((b.drop 1).take 4)
    if len < 4 then .error (.transfer "walsender: bad message length")
    else if maxFrame < len then .error (announces len)
    else if b.length < 1 + len then
      .error (.transfer "walsender: stream ended inside a frame body")
    else .ok ((b.headD 0, (b.drop 5).take (len - 4)), b.drop (1 + len))

/-- The bytes behind the next ReadyForQuery. -/
def drainToReady : Nat → Bytes → Except Error Bytes
  | 0, _ => .error closedMidStream
  | fuel + 1, b =>
      (readFrame b).bind fun r => if r.1.1 = 90 then .ok r.2 else drainToReady fuel r.2

/-! ## The scan -/

/-- A connection in a COPY: a header read in part, the message whose body is being read with
the bytes it still has, and an error's body so far. -/
structure CopyOut where
  rd : Socket
  eof : Bool
  head : Bytes
  tag : UInt8
  left : Nat
  err : Bytes

/-- The scan of one window: the bytes it has not used, the connection's part of the state, the
buffer, and whether the COPY came to its end or to an error. -/
structure Scan where
  w : Bytes
  head : Bytes
  tag : UInt8
  left : Nat
  err : Bytes
  buf : Bytes
  done : Bool
  fail : Option Error

def known (tag : UInt8) : Bool := tag ∈ [100, 90, 69, 99, 67, 83, 78, 65]

/-- A byte as a character is shown in `{:?}`. -/
def debugChar (b : UInt8) : String :=
  let hex := String.ofList (Nat.toDigits 16 b.toNat)
  let shown :=
    if b = 0 then "\\0" else if b = 9 then "\\t" else if b = 10 then "\\n"
    else if b = 13 then "\\r" else if b = 39 then "\\'" else if b = 92 then "\\\\"
    else if b < 32 ∨ (127 ≤ b ∧ b ≤ 160) ∨ b = 173 then "\\u\x7b" ++ hex ++ "\x7d"
    else String.singleton (Char.ofNat b.toNat)
  "'" ++ shown ++ "'"

def badLength : Error := .transfer "copy_out: bad message length"

def unexpected (tag : UInt8) : Error :=
  .transfer ("copy_out: unexpected message " ++ debugChar tag)

namespace Scan

variable (lossy : Lossy) (target : Nat) (s : Scan)

/-- A run of a message's body. -/
def body : Scan × Bool :=
  let take := min s.w.length s.left
  let run := s.w.take take
  let s := { s with
    buf := if s.tag = 100 then s.buf ++ run else s.buf
    err := if s.tag = 69 then s.err ++ run else s.err
    left := s.left - take
    w := s.w.drop take }
  if s.left = 0 then
    if s.tag = 90 then ({ s with done := true }, false)
    else if s.tag = 69 then ({ s with fail := some (parseError lossy s.err), err := [] }, false)
    else if s.tag = 100 ∧ target ≤ s.buf.length then (s, false)
    else (s, true)
  else (s, true)

/-- A header, whole in the window or with what was carried over: the five bytes, or nothing
where the window ends before. -/
def header : Option Bytes × Scan :=
  if s.head = [] ∧ 5 ≤ s.w.length then (some (s.w.take 5), { s with w := s.w.drop 5 })
  else
    let take := min s.w.length (5 - s.head.length)
    let s := { s with head := s.head ++ s.w.take take, w := s.w.drop take }
    if s.head.length < 5 then (none, s) else (some s.head, { s with head := [] })

/-- A message begins. -/
def begin_ (h : Bytes) : Scan × Bool :=
  let tag := h.headD 0
  let len := fromBe (h.drop 1)
  if len < 4 then ({ s with fail := some badLength }, false)
  else if known tag = false then ({ s with fail := some (unexpected tag) }, false)
  else
    let s := { s with tag := tag, left := len - 4 }
    if s.left = 0 ∧ tag = 90 then ({ s with done := true }, false)
    else if s.left = 0 ∧ tag = 69 then ({ s with fail := some (parseError lossy []) }, false)
    else (s, true)

/-- One round of the loop, and whether it goes on. -/
def turn : Scan × Bool :=
  if 0 < s.left then s.body lossy target
  else
    match s.header with
    | (none, s) => (s, false)
    | (some h, s) => s.begin_ lossy h

def loop : Nat → Scan → Scan
  | 0, s => s
  | fuel + 1, s =>
      if s.w = [] then s
      else
        let r := s.turn lossy target
        if r.2 then loop fuel r.1 else r.1

end Scan

/-- What a call leaves: the connection, the buffer, and whether there may be more. -/
structure Called where
  state : CopyOut
  buf : Bytes
  result : Except Error Bool

namespace CopyOut

variable (lossy : Lossy) (target : Nat)

def closed : Error := .transfer "copy_out: connection closed mid-stream"

/-- A window's scan at its start. -/
def first (c : CopyOut) (buf : Bytes) : Scan :=
  ⟨c.rd.fillBuf.1, c.head, c.tag, c.left, c.err, buf, false, none⟩

/-- The connection behind a window's scan, what the scan used consumed. -/
def behind (c : CopyOut) (r : Scan) : CopyOut :=
  let filled := c.rd.fillBuf
  ⟨filled.2.consume (filled.1.length - r.w.length), c.eof, r.head, r.tag, r.left, r.err⟩

/-- The connection is drained to ReadyForQuery, then the error is given. -/
def failing (c : CopyOut) (buf : Bytes) (e : Error) : Called :=
  match drainToReady (c.rd.bytes.length + 1) c.rd.bytes with
  | .error e => ⟨{ c with eof := true }, buf, .error e⟩
  | .ok rest => ⟨{ c with rd := ⟨rest, []⟩, eof := true }, buf, .error e⟩

/-- Windows until the buffer is filled or the COPY ends. -/
def windows : Nat → CopyOut → Bytes → Called
  | 0, c, buf => ⟨c, buf, .error closed⟩
  | fuel + 1, c, buf =>
      if c.rd.fillBuf.1 = [] then ⟨{ c with rd := c.rd.fillBuf.2 }, buf, .error closed⟩
      else
        let r := Scan.loop lossy target (c.rd.fillBuf.1.length + 1) (c.first buf)
        let c := c.behind r
        match r.fail with
        | some e => c.failing r.buf e
        | none =>
            if r.done then ⟨{ c with eof := true }, r.buf, .ok (decide (r.buf ≠ []))⟩
            else if target ≤ r.buf.length then ⟨c, r.buf, .ok true⟩
            else windows fuel c r.buf

/-- The next piece of the COPY. -/
def copyOutNext (s : CopyOut) : Called :=
  if s.eof then ⟨s, [], .ok false⟩ else windows lossy target (s.rd.bytes.length + 1) s []

/-- A COPY at its start. -/
def start (rd : Socket) : CopyOut := ⟨rd, false, [], 0, 0, []⟩

/-- Calls with one target after another until one does not go on: all they put into the
buffers, the last one's result, the connection. -/
def session (targets : Nat → Nat) :
    Nat → Nat → CopyOut → Bytes × Option (Except Error Bool) × CopyOut
  | 0, _, s => ([], none, s)
  | fuel + 1, i, s =>
      let call := copyOutNext lossy (targets i) s
      match call.result with
      | .ok true =>
          let rest := session targets fuel (i + 1) call.state
          (call.buf ++ rest.1, rest.2)
      | result => (call.buf, some result, call.state)

end CopyOut

end Apitap.Walsender
