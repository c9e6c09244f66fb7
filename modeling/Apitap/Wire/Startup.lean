import Apitap.Foundation.Utf8
import Apitap.Wire.Scram
import Mathlib.Data.List.Infix

/-!
# Startup of a connection

TLS as the URL asks for it, the startup packet, and the conversation that follows until the
server is ready: it may ask for the password itself, for an MD5 of it, or for SCRAM. What the
server sends is arbitrary, and so is when it sends it.
-/

namespace Apitap.Scram

open Foundation
open Copy (be fromBe)
open Walsender (Message Lossy parseError debugChar)

/-- What the URL asks of the transport; a preference may be the default. -/
inductive SslMode where
  | disable
  | prefer (explicit : Bool)
  | require
  | verifyFull
deriving DecidableEq, Repr

structure ConnInfo where
  host : String
  port : Nat
  user : Bytes
  password : Bytes
  db : Bytes
  ssl : SslMode
  options : Option Bytes

/-- The hash functions, the nonces drawn one after another, the text of
`APITAP_ALLOW_INSECURE_AUTH`, and how bytes are shown in an error. -/
structure Env where
  crypto : Crypto
  nonces : Nat → Bytes
  insecureAuth : Option Bytes
  lossy : Lossy
  debugStr : Bytes → String
  nonce_plain : ∀ k, Plain (nonces k)

/-! ## The transport -/

/-- A connection, and for TLS whether the certificate was verified. -/
inductive Channel where
  | plain
  | tls (verified : Bool)
deriving DecidableEq, Repr

/-- The other end: its answer to an SSLRequest if it gives one, what the handshake comes to with
and without verification, and the messages it sends. -/
structure Peer where
  answer : Option UInt8
  handshake : Bool → Except Error Unit
  messages : List Message

def closed : Error :=
  .transfer ("postgres closed the connection mid-stream — a server restart, a " ++
    "pg_terminate_backend, an idle/statement timeout, or a dropped network path. Nothing was " ++
    "committed at the destination (bulk loads swap only at the end, and a CDC watermark " ++
    "advances only with its data), so re-running is safe and is the recovery.")

/-- A TLS connection, or none where the server refuses it. -/
def tlsUpgrade (peer : Peer) (verify : Bool) : Except Error (Option Channel) :=
  match peer.answer with
  | none => .error closed
  | some answer =>
      if answer ≠ 83 then .ok none
      else
        match peer.handshake verify with
        | .error e => .error e
        | .ok () => .ok (some (.tls verify))

namespace ConnInfo

variable (ci : ConnInfo)

def refusedTls (verify : Bool) : Error :=
  .transfer ("postgres " ++ ci.host ++ ":" ++ toString ci.port ++ " answered the SSLRequest " ++
    "with 'N': it is not built with TLS support, or ssl is off in postgresql.conf. sslmode=" ++
    (if verify then "verify-full" else "require") ++ " does not permit a cleartext fallback.")

/-- TLS before the startup packet, or not at all. -/
def dial (peer : Peer) : Except Error Channel :=
  match ci.ssl with
  | .disable => .ok .plain
  | .prefer _ =>
      match tlsUpgrade peer false with
      | .error e => .error e
      | .ok (some tls) => .ok tls
      | .ok none => .ok .plain
  | .require | .verifyFull =>
      let verify := decide (ci.ssl = .verifyFull)
      match tlsUpgrade peer verify with
      | .error e => .error e
      | .ok (some tls) => .ok tls
      | .ok none => .error (ci.refusedTls verify)

/-! ## The startup packet -/

/-- The options of the URL before the caller's. -/
def merged (options : Option Bytes) : Option Bytes :=
  match ci.options, options with
  | some a, some b => some (a ++ bytesOf " " ++ b)
  | a, b => a.or b

/-- The session's parameters, in order. -/
def params (options : Option Bytes) (replication : Bool) : List (Bytes × Bytes) :=
  [(bytesOf "user", ci.user), (bytesOf "database", ci.db),
    (bytesOf "client_encoding", bytesOf "UTF8"), (bytesOf "TimeZone", bytesOf "UTC"),
    (bytesOf "DateStyle", bytesOf "ISO"), (bytesOf "IntervalStyle", bytesOf "postgres"),
    (bytesOf "extra_float_digits", bytesOf "3"), (bytesOf "bytea_output", bytesOf "hex"),
    (bytesOf "idle_in_transaction_session_timeout", bytesOf "0")] ++
  (if replication then [(bytesOf "replication", bytesOf "database")] else []) ++
  ((ci.merged options).map fun o => (bytesOf "options", o)).toList

def startupMessage (options : Option Bytes) (replication : Bool) : Bytes :=
  let body := be 4 196608 ++
    (ci.params options replication).flatMap (fun kv => kv.1 ++ [0] ++ kv.2 ++ [0]) ++ [0]
  be 4 (body.length + 4) ++ body

end ConnInfo

/-! ## The conversation -/

/-- The messages sent, the exchange begun last, and how many nonces were drawn. -/
structure Session where
  sent : List Message
  scram : Option ScramState
  drawn : Nat

def Session.new : Session := ⟨[], none, 0⟩

/-- A message to the server. -/
def Session.send (s : Session) (body : Bytes) : Session :=
  { s with sent := s.sent ++ [(112, body)] }

def truncated : Error := .transfer "walsender: truncated authentication request"

def exposes (what : String) : Error :=
  .transfer ("walsender: the server asked for a " ++ what ++ ", which exposes the password on " ++
    "an unverified channel (a MITM can ask for cleartext, and MD5 is offline-crackable). Use " ++
    "sslmode=verify-full, or set APITAP_ALLOW_INSECURE_AUTH=1 if the network is trusted")

def unsupportedSasl (shown : String) : Error :=
  .transfer ("walsender: server offers SASL " ++ shown ++ ", only SCRAM-SHA-256 is supported")

def unsupportedAuth (code : Nat) : Error :=
  .transfer ("walsender: unsupported auth method " ++ toString code)

def unexpectedMessage (tag : UInt8) : Error :=
  .transfer ("walsender startup: unexpected message " ++ debugChar tag)

/-- A password as it is sent. -/
def passwordMessage (pw : Bytes) : Bytes := pw ++ [0]

def md5Password (crypto : Crypto) (user password salt : Bytes) : Bytes :=
  bytesOf "md5" ++ crypto.md5Hex (crypto.md5Hex (password ++ user) ++ salt)

/-- The client's first message. -/
def initialMessage (nonce : Bytes) : Bytes :=
  let first := (ScramState.start nonce).clientFirst
  bytesOf "SCRAM-SHA-256" ++ [0] ++ be 4 first.length ++ first

/-- The mechanisms a server offers; none where they are no text. -/
def mechanisms (text : Bytes) : Bytes := if Utf8.valid text then text else []

section Conversation

variable (env : Env) (ci : ConnInfo)

def authDowngradeAllowed : Bool := env.insecureAuth = some (bytesOf "1")

def downgradeOk : Bool := ci.ssl = .verifyFull || authDowngradeAllowed env

/-- An authentication request. -/
def authenticate (s : Session) (msg : Bytes) : Except Error Session :=
  if msg.length < 4 then .error truncated
  else
    let code := fromBe (msg.take 4)
    let text := msg.drop 4
    if code = 0 then .ok s
    else if code = 3 then
      if downgradeOk env ci then .ok (s.send (passwordMessage ci.password))
      else .error (exposes "cleartext password")
    else if code = 5 then
      if downgradeOk env ci then
        if msg.length < 8 then .error truncated
        else .ok (s.send (passwordMessage
          (md5Password env.crypto ci.user ci.password (text.take 4))))
      else .error (exposes "MD5 password")
    else if code = 10 then
      let mechs := mechanisms text
      if bytesOf "SCRAM-SHA-256" <:+: mechs then
        let nonce := env.nonces s.drawn
        .ok { s.send (initialMessage nonce) with
          scram := some (.start nonce), drawn := s.drawn + 1 }
      else .error (unsupportedSasl (env.debugStr mechs))
    else if code = 11 then
      if Utf8.valid text then
        match s.scram with
        | none => .error badScram
        | some st =>
            match st.clientFinal env.crypto text ci.password with
            | .error e => .error e
            | .ok (fin, st) => .ok { s.send fin with scram := some st }
      else .error badScram
    else if code = 12 then
      if Utf8.valid text then
        match s.scram with
        | none => .error badScram
        | some st =>
            match st.verifyServer env.crypto text with
            | .error e => .error e
            | .ok st => .ok { s with scram := some st }
      else .error badScram
    else .error (unsupportedAuth code)

/-- One message of the server; the flag says that the startup is over. -/
def receive (s : Session) (m : Message) : Except Error (Session × Bool) :=
  if m.1 = 82 then
    match authenticate env ci s m.2 with
    | .error e => .error e
    | .ok s => .ok (s, false)
  else if m.1 = 83 ∨ m.1 = 75 ∨ m.1 = 78 then .ok (s, false)
  else if m.1 = 90 then
    match s.scram with
    | none => .ok (s, true)
    | some st =>
        match st.requireVerified with
        | .error e => .error e
        | .ok () => .ok (s, true)
  else if m.1 = 69 then .error (parseError env.lossy m.2)
  else .error (unexpectedMessage m.1)

/-- The conversation over the messages that come: how it ends, if it does. -/
def startup (s : Session) : List Message → Session × Option (Except Error Unit)
  | [] => (s, none)
  | m :: ms =>
      match receive env ci s m with
      | .error e => (s, some (.error e))
      | .ok (s, true) => (s, some (.ok ()))
      | .ok (s, false) => startup s ms

/-- A connection to a peer: the channel, and the conversation on it. -/
def connectInner (peer : Peer) :
    Except Error (Channel × Session × Option (Except Error Unit)) :=
  match ci.dial peer with
  | .error e => .error e
  | .ok channel => .ok (channel, startup env ci .new peer.messages)

end Conversation

end Apitap.Scram
