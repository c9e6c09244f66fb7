import Apitap.Wire.ArrowColumn
import Apitap.Wire.CopyOut
import Apitap.Wire.ParquetEncoder

/-!
# The two Arrow planes

Spans of binary COPY come into a builder in two ways. The buffered plane pushes pieces of the
payload, walks each in place and keeps the tail that is not a whole element. The framed plane
walks the wire's own window with the CopyData headers in it, refills the window where an element
is not whole, and falls back to the other where one is cut by the end of a message. Tuples are
staged, up to 64 of them, before they are decoded.
-/

namespace Apitap.Arrow

open Foundation
open Copy (fromBe fromBeInt)
open Parquet (bad corrupt wrongCount sub)
open Walsender (Chunk Lossy badLength maxFrame parseError unexpected)

/-- Tuples staged at a time. -/
def stK : Nat := 64

def pastWindow : Error := bad "staging window past 4 GiB"

/-- A field's offset in the staging window. -/
def stageOff (o : Nat) : Except (Stop Error) Nat :=
  if o < 2 ^ 32 then .ok o else .error (.err pastWindow)

/-- Where each field of a tuple is and how long, or that it is NULL. -/
abbrev Staged := List (Option (Nat × Nat))

/-- The fields of a tuple from `o` on, none of them past `fin`, and where they end; nothing where
one is not whole. -/
def stageFields (data : Bytes) (fin : Nat) :
    Nat → Nat → Except (Stop Error) (Option (Staged × Nat))
  | 0, o => .ok (some ([], o))
  | n + 1, o =>
      if fin - o < 4 then .ok none
      else
        let len := fromBeInt ((data.drop o).take 4)
        if len < -1 then .error (.err (corrupt len))
        else if len = -1 then
          (stageFields data fin n (o + 4)).map (Option.map fun r => (none :: r.1, r.2))
        else if fin - (o + 4) < len.toNat then .ok none
        else
          (stageOff (o + 4)).bind fun off =>
            (stageFields data fin n (o + 4 + len.toNat)).map (Option.map fun r =>
              (some (off, len.toNat) :: r.1, r.2))

/-- The tuple at a place, none of it past `fin`: nothing where it is not whole, no fields where
there is a trailer. -/
def stageOne (ncols : Nat) (data : Bytes) (fin pos : Nat) :
    Except (Stop Error) (Option (Option (Staged × Nat))) :=
  if fin - pos < 2 then .ok none
  else
    let nc := fromBeInt ((data.drop pos).take 2)
    if nc = -1 then .ok (some none)
    else if nc ≠ ncols then .error (.err (wrongCount nc ncols))
    else (stageFields data fin ncols (pos + 2)).map (Option.map some)

/-- The bytes of a staged field. -/
def readField (data : Bytes) : Option (Nat × Nat) → Except (Stop Error) (Option Bytes)
  | none => .ok none
  | some (o, n) => (sub data o n).map some

/-- Decode what is staged of some data. -/
def BatchBuilder.decodeAt (b : BatchBuilder) (data : Bytes) (staged : List Staged) :
    Except (Stop Error) BatchBuilder :=
  if staged = [] then .ok b
  else (staged.mapM fun row : Staged => row.mapM (readField data)).bind b.decodeStaged

/-- One span's header, whole at the front of the bytes. -/
def header (b : Bytes) : Except (Stop Error) (Option Nat) :=
  if b.length < 19 then .ok none
  else if b.take 11 ≠ Copy.signature then .error (.err (.transfer "pg binary COPY: bad header"))
  else
    let ext := fromBe ((b.drop 15).take 4)
    if b.length < 19 + ext then .ok none else .ok (some (19 + ext))

/-! ## The buffered plane -/

/-- Why `stageTuples` stopped. -/
inductive StageStop where
  | full
  | incomplete
  | trailer
deriving DecidableEq

/-- Up to so many more whole tuples: all that are staged, where they end, and why it stopped. -/
def stageTuples (ncols : Nat) (data : Bytes) :
    Nat → Nat → List Staged → Except (Stop Error) (List Staged × Nat × StageStop)
  | 0, pos, staged => .ok (staged, pos, .full)
  | k + 1, pos, staged =>
      match stageOne ncols data data.length pos with
      | .error e => .error e
      | .ok none => .ok (staged, pos, .incomplete)
      | .ok (some none) => .ok (staged, pos, .trailer)
      | .ok (some (some (row, fin))) => stageTuples ncols data k fin (staged ++ [row])

namespace BatchBuilder

/-- Into a span where there is none: nothing where its header is not whole. -/
def enter (b : BatchBuilder) (data : Bytes) (pos : Nat) :
    Except (Stop Error) (Option (BatchBuilder × Nat)) :=
  if b.inSpan then .ok (some (b, pos))
  else (header (data.drop pos)).map (Option.map fun k => ({ b with inSpan := true }, pos + k))

/-- Tuples staged and decoded: where they end, and why there are no more. -/
def stage (b : BatchBuilder) (data : Bytes) (pos : Nat) :
    Except (Stop Error) (BatchBuilder × Nat × StageStop) :=
  (stageTuples b.cols.length data stK pos []).bind fun (staged, fin, stop) =>
    (b.decodeAt data staged).map fun b => (b, fin, stop)

/-- Headers, tuples and trailers until the data runs out in one of them, and where that is. Each
round takes a byte. -/
def walkFrom (data : Bytes) :
    Nat → BatchBuilder → Nat → Except (Stop Error) (BatchBuilder × Nat)
  | 0, b, pos => .ok (b, pos)
  | fuel + 1, b, pos =>
      match b.enter data pos with
      | .error e => .error e
      | .ok none => .ok (b, pos)
      | .ok (some (b, pos)) =>
          match b.stage data pos with
          | .error e => .error e
          | .ok (b, fin, .full) => walkFrom data fuel b fin
          | .ok (b, fin, .incomplete) => .ok (b, fin)
          | .ok (b, fin, .trailer) => walkFrom data fuel { b with inSpan := false } (fin + 2)

def walk (b : BatchBuilder) (data : Bytes) : Except (Stop Error) (BatchBuilder × Nat) :=
  walkFrom data (data.length + 1) b 0

/-- While a tail is kept, bites of the chunk go behind it, each twice as long as the one before;
what of the chunk is left when there is none. -/
def topUp : Nat → BatchBuilder → Nat → Bytes → Except (Stop Error) (BatchBuilder × Bytes)
  | 0, b, _, rest => .ok (b, rest)
  | fuel + 1, b, bite, rest =>
      if b.buf = [] ∨ rest = [] then .ok (b, rest)
      else
        let take := min rest.length bite
        let data := b.buf ++ rest.take take
        ({ b with buf := [] }.walk data).bind fun (b, consumed) =>
          if consumed = data.length then .ok ({ b with buf := [] }, rest.drop take)
          else
            topUp fuel { b with buf := data.drop consumed } (min (bite * 2) (64 <<< 20))
              (rest.drop take)

/-- One raw chunk. -/
def push (b : BatchBuilder) (chunk : Bytes) : Except (Stop Error) BatchBuilder :=
  (topUp (chunk.length + 1) b (16 <<< 10) chunk).bind fun (b, rest) =>
    if rest = [] then .ok b
    else (b.walk rest).map fun (b, consumed) => { b with buf := b.buf ++ rest.drop consumed }

end BatchBuilder

/-- A builder and the batches that have left it. -/
structure Loader where
  builder : BatchBuilder
  out : List ArrowBatch

namespace Loader

def new (kinds : List ArrowKind) (batchBytes : Nat) : Loader := ⟨.new kinds batchBytes, []⟩

/-- A batch leaves where it is ready. -/
def ship (s : Loader) (b : BatchBuilder) : Except (Stop Error) Loader :=
  b.takeReady.map fun (batch, b) => ⟨b, s.out ++ batch.toList⟩

def send (s : Loader) (piece : Bytes) : Except (Stop Error) Loader :=
  (s.builder.push piece).bind s.ship

/-- Pieces one after another. -/
def sendAll : Loader → List Bytes → Except (Stop Error) Loader
  | s, [] => .ok s
  | s, piece :: pieces => (s.send piece).bind fun s => sendAll s pieces

/-- All the batches, the last one too. -/
def finish (s : Loader) : Except (Stop Error) (List ArrowBatch) :=
  s.builder.finish.map fun r => s.out ++ r.1.toList

end Loader

/-! ## The framed plane -/

/-- Why `stageFramed` stopped. -/
inductive StageStopF where
  | full
  | needMore
  | control
  | straddle
  | trailer
deriving DecidableEq

/-- Why `pushFramed` returned. -/
inductive FramedPush where
  | needMore
  | control
  /-- An element is cut by the end of a message, with so much of the message's payload left. -/
  | straddle (left : Nat)
deriving DecidableEq

/-- Past a CopyData header at a place of the window: the payload it announces, or why not. -/
def hop (win : Bytes) (pos : Nat) : Except (Stop Error) (StageStopF ⊕ Nat) :=
  if win.length - pos < 5 then .ok (.inl .needMore)
  else if (win.drop pos).headD 0 ≠ 100 then .ok (.inl .control)
  else
    let len := fromBe ((win.drop (pos + 1)).take 4)
    if len < 4 then .error (.err badLength) else .ok (.inr (len - 4))

/-- What is not whole in the payload is so because of the window, or of the message. -/
def cut (win : Bytes) (pos frLeft : Nat) : StageStopF :=
  if win.length < pos + frLeft then .needMore else .straddle

/-- Whole tuples up to 64, over the headers between them: all that are staged, where they end,
what is left of the payload, and why it stopped. -/
def stageFramed (ncols : Nat) (win : Bytes) :
    Nat → Nat → Nat → List Staged → Except (Stop Error) (List Staged × Nat × Nat × StageStopF)
  | 0, frLeft, pos, staged => .ok (staged, pos, frLeft, .full)
  | fuel + 1, frLeft, pos, staged =>
      if stK ≤ staged.length then .ok (staged, pos, frLeft, .full)
      else if frLeft = 0 then
        match hop win pos with
        | .error e => .error e
        | .ok (.inl stop) => .ok (staged, pos, frLeft, stop)
        | .ok (.inr left) => stageFramed ncols win fuel left (pos + 5) staged
      else
        match stageOne ncols win (min (pos + frLeft) win.length) pos with
        | .error e => .error e
        | .ok none => .ok (staged, pos, frLeft, cut win pos frLeft)
        | .ok (some none) => .ok (staged, pos, frLeft, .trailer)
        | .ok (some (some (row, fin))) =>
            stageFramed ncols win fuel (frLeft - (fin - pos)) fin (staged ++ [row])

namespace BatchBuilder

/-- The element at a place of the window is not whole. -/
def broken (b : BatchBuilder) (win : Bytes) (pos : Nat) : BatchBuilder × Nat × FramedPush :=
  if win.length < pos + b.frLeft then (b, pos, .needMore)
  else ({ b with frLeft := 0 }, pos, .straddle b.frLeft)

/-- Tuples of the window staged and decoded: where they end, and why there are no more. -/
def stageWindow (b : BatchBuilder) (win : Bytes) (pos : Nat) :
    Except (Stop Error) (BatchBuilder × Nat × StageStopF) :=
  (stageFramed b.cols.length win (win.length + 1) b.frLeft pos []).bind
    fun (staged, fin, left, stop) =>
      ({ b with frLeft := left }.decodeAt win staged).map fun b => (b, fin, stop)

/-- Elements of the raw window until one is not whole or there is another message than CopyData:
where that is, and which of the two. Each round takes a byte. -/
def pushFrom (win : Bytes) :
    Nat → BatchBuilder → Nat → Except (Stop Error) (BatchBuilder × Nat × FramedPush)
  | 0, b, pos => .ok (b, pos, .needMore)
  | fuel + 1, b, pos =>
      if b.frLeft = 0 then
        match hop win pos with
        | .error e => .error e
        | .ok (.inl .control) => .ok (b, pos, .control)
        | .ok (.inl _) => .ok (b, pos, .needMore)
        | .ok (.inr left) => pushFrom win fuel { b with frLeft := left } (pos + 5)
      else if b.inSpan = false then
        match header ((win.take (min (pos + b.frLeft) win.length)).drop pos) with
        | .error e => .error e
        | .ok none => .ok (b.broken win pos)
        | .ok (some k) =>
            pushFrom win fuel { b with inSpan := true, frLeft := b.frLeft - k } (pos + k)
      else
        match b.stageWindow win pos with
        | .error e => .error e
        | .ok (b, fin, .full) => pushFrom win fuel b fin
        | .ok (b, fin, .needMore) => .ok (b, fin, .needMore)
        | .ok (b, fin, .control) => .ok (b, fin, .control)
        | .ok (b, fin, .straddle) => .ok ({ b with frLeft := 0 }, fin, .straddle b.frLeft)
        | .ok (b, fin, .trailer) =>
            if b.frLeft < 2 then .ok ({ b with frLeft := 0 }, fin, .straddle b.frLeft)
            else pushFrom win fuel { b with inSpan := false, frLeft := b.frLeft - 2 } (fin + 2)

def pushFramed (b : BatchBuilder) (win : Bytes) :
    Except (Stop Error) (BatchBuilder × Nat × FramedPush) :=
  pushFrom win (win.length + 1) b 0

end BatchBuilder

/-- The window of a connection in a COPY, and what the reads of its socket will give. -/
structure Conn where
  win : Bytes
  reads : List Chunk

namespace Conn

def closed : Error := .transfer "copy_out: connection closed mid-stream"

/-- `co_advance`. -/
def advance (c : Conn) (n : Nat) : Conn := { c with win := c.win.drop n }

/-- `co_refill`: a read goes behind what is not consumed. -/
def refill (c : Conn) : Except Error Conn :=
  match c.reads with
  | [] => .error closed
  | r :: reads => .ok ⟨c.win ++ r.1, reads⟩

/-- Refills until the window holds so many bytes. -/
def fill (n : Nat) : Bytes → List Chunk → Except Error Conn
  | win, [] => if win.length < n then .error closed else .ok ⟨win, []⟩
  | win, r :: reads => if win.length < n then fill n (win ++ r.1) reads else .ok ⟨win, r :: reads⟩

def announces (len : Nat) : Error :=
  .transfer ("copy_out: message announces " ++ toString len ++ " bytes, past the 1 GB " ++
    "protocol limit — the peer on this socket is not answering the Postgres frontend protocol")

/-- The length of the message at the front. -/
def length (c : Conn) : Nat := fromBe ((c.win.drop 1).take 4)

/-- Behind an error, messages up to ReadyForQuery; what there is to report. -/
def drained (e : Error) : Nat → Conn → Error
  | 0, _ => e
  | fuel + 1, c =>
      match fill 5 c.win c.reads with
      | .error x => x
      | .ok c =>
          if ¬ (4 ≤ c.length ∧ c.length ≤ maxFrame) then e
          else
            match fill (1 + c.length) c.win c.reads with
            | .error x => x
            | .ok whole =>
                if c.win.headD 0 = 90 then e
                else drained e fuel (whole.advance (1 + c.length))

def bytes (c : Conn) : Bytes := c.win ++ c.reads.flatMap Subtype.val

/-- `co_control`: one message that is not CopyData, and whether the COPY is over. -/
def control (lossy : Lossy) (c : Conn) : Except Error (Bool × Conn) :=
  (fill 5 c.win c.reads).bind fun c =>
    if c.length < 4 then .error badLength
    else if maxFrame < c.length then .error (announces c.length)
    else
      (fill (1 + c.length) c.win c.reads).bind fun whole =>
        let tag := c.win.headD 0
        let rest := whole.advance (1 + c.length)
        if tag = 90 then .ok (true, rest)
        else if tag = 69 then
          .error (drained (parseError lossy ((whole.win.take (1 + c.length)).drop 5))
            (rest.bytes.length + 1) rest)
        else if tag ∈ [99, 67, 83, 78, 65] then .ok (false, rest)
        else .error (unexpected tag)

end Conn

/-- A worker in a COPY; what a message still has to give while its payload is pushed. -/
structure Worker where
  loader : Loader
  conn : Conn
  left : Option Nat

namespace Worker

/-- What goes wrong on the connection. -/
def reading {α : Type} (x : Except Error α) : Except (Stop Error) α :=
  x.mapError fun e => .err (.transfer ("pg read: " ++ e.display))

/-- A control message, and whether the COPY is over. -/
def controlled (lossy : Lossy) (s : Worker) : Except (Stop Error) (Bool × Worker) :=
  (reading (s.conn.control lossy)).map fun (over_, conn) => (over_, { s with conn := conn })

/-- What is done about the stop of a framed push. -/
def framed (lossy : Lossy) (s : Worker) : FramedPush → Except (Stop Error) (Bool × Worker)
  | .needMore => (reading s.conn.refill).map fun conn => (false, { s with conn := conn })
  | .control => s.controlled lossy
  | .straddle left => .ok (false, { s with left := some left })

/-- One round of a COPY's loops, and whether the COPY is over. -/
def turn (lossy : Lossy) (s : Worker) : Except (Stop Error) (Bool × Worker) :=
  match s.left with
  | none =>
      (reading (Conn.fill 1 s.conn.win s.conn.reads)).bind fun conn =>
        (s.loader.builder.pushFramed conn.win).bind fun (b, n, push) =>
          (s.loader.ship b).bind fun loader =>
            framed lossy ⟨loader, conn.advance n, none⟩ push
  | some 0 =>
      (reading (Conn.fill 5 s.conn.win s.conn.reads)).bind fun conn =>
        if conn.win.headD 0 ≠ 100 then { s with conn := conn }.controlled lossy
        else if conn.length < 4 then .error (.err badLength)
        else .ok (false, { s with conn := conn.advance 5, left := some (conn.length - 4) })
  | some left =>
      (reading (Conn.fill 1 s.conn.win s.conn.reads)).bind fun conn =>
        let take := min conn.win.length left
        (s.loader.send (conn.win.take take)).map fun loader =>
          (false, ⟨loader, conn.advance take, some (left - take)⟩)

/-- The rounds of a COPY. -/
def rounds (lossy : Lossy) : Nat → Worker → Except (Stop Error) Loader
  | 0, _ => .error .panic
  | fuel + 1, s =>
      (s.turn lossy).bind fun (over_, s) => if over_ then .ok s.loader else rounds lossy fuel s

/-- Each round takes a byte or a read, or changes the plane. -/
def size (s : Worker) : Nat :=
  s.conn.bytes.length + s.conn.reads.length + (if s.left = none then 1 else 0)

/-- One COPY through the framed plane. -/
def copyOut (lossy : Lossy) (loader : Loader) (reads : List Chunk) : Except (Stop Error) Loader :=
  let s : Worker := ⟨loader, ⟨[], reads⟩, none⟩
  s.rounds lossy (s.size + 1)

/-- The COPYs of a worker's spans, one after another. -/
def copies (lossy : Lossy) : Loader → List (List Chunk) → Except (Stop Error) Loader
  | loader, [] => .ok loader
  | loader, reads :: later => (copyOut lossy loader reads).bind fun s => copies lossy s later

end Worker

end Apitap.Arrow
