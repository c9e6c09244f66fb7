import Apitap.Wire.Authenticated

/-!
# The server's side of SCRAM

What a server keeps of a password, the messages it answers with, and its check of the client's
proof. A server that keeps the client's own password accepts it and is accepted, with whatever
notices between its messages. It reads the startup packet as the parameters the client meant.
-/

namespace Apitap.Scram

open Foundation
open Copy (be fromBe)
open Walsender (Message)

/-- What a server keeps of a password. -/
structure Credential where
  salt : Bytes
  iterations : Nat
  storedKey : Bytes
  serverKey : Bytes

namespace Credential

/-- The credential of a password under a salt. -/
def ofPassword (crypto : Crypto) (password salt : Bytes) (iterations : Nat) : Credential :=
  let salted := hi crypto password salt iterations
  ⟨salt, iterations, Scram.storedKey crypto salted, Scram.serverKey crypto salted⟩

variable (crypto : Crypto) (cred : Credential)

/-- The first message, for a nonce that continues the client's. -/
def first (nonce : Bytes) : Bytes :=
  bytesOf "r=" ++ nonce ++ bytesOf ",s=" ++ crypto.base64.encode cred.salt ++ bytesOf ",i=" ++
    Decimal.ascii (Decimal.itoa cred.iterations)

/-- The key behind a proof is the client's: its hash is the one that is kept. -/
def accepts (auth proof : Bytes) : Bool :=
  crypto.sha256 (xorBytes proof (crypto.hmac cred.storedKey auth)) = cred.storedKey

/-- The last message. -/
def final (auth : Bytes) : Bytes :=
  bytesOf "v=" ++ crypto.base64.encode (crypto.hmac cred.serverKey auth)

end Credential

/-- The proof in a client's last message. -/
def proofIn (crypto : Crypto) (nonce fin : Bytes) : Option Bytes :=
  if withoutProof crypto nonce ++ bytesOf ",p=" <+: fin then
    crypto.base64.decode (fin.drop (withoutProof crypto nonce ++ bytesOf ",p=").length)
  else none

/-- An authentication request. -/
def asks (code : Nat) (text : Bytes) : Message := (82, be 4 code ++ text)

/-- A message that may come at any time. -/
def Notice (m : Message) : Prop := m.1 = 83 ∨ m.1 = 75 ∨ m.1 = 78

instance (m : Message) : Decidable (Notice m) := inferInstanceAs (Decidable (_ ∨ _))

variable {env : Env} {ci : ConnInfo} {s : Session} {text : Bytes}

/-! ## One request -/

theorem receive_asks {code : Nat} {s' : Session}
    (is : authenticate env ci s (be 4 code ++ text) = .ok s') :
    receive env ci s (asks code text) = .ok (s', false) := by
  rw [receive, asks, if_pos rfl, is]

theorem receive_notice {m : Message} (notice : Notice m) : receive env ci s m = .ok (s, false) := by
  have other : m.1 ≠ 82 := by
    intro auth
    rw [Notice, auth] at notice
    revert notice
    decide
  rw [receive, if_neg other]
  exact if_pos notice

section Asked

variable {code : Nat} (text : Bytes)

theorem long_asked : ¬ (be 4 code ++ text).length < 4 := by
  rw [List.length_append, Copy.length_be]
  exact Nat.not_lt_of_le (Nat.le_add_right 4 _)

theorem code_asked (small : code < 2 ^ 32) : fromBe ((be 4 code ++ text).take 4) = code := by
  rw [List.take_left' Copy.length_be]
  exact Copy.fromBe_be small

theorem text_asked : (be 4 code ++ text).drop 4 = text := List.drop_left' Copy.length_be

end Asked

theorem authenticate_ok : authenticate env ci s (be 4 0 ++ text) = .ok s := by
  simp only [authenticate, if_neg (long_asked text), code_asked text (show 0 < 2 ^ 32 by decide),
    if_true]

theorem authenticate_sasl (offers : bytesOf "SCRAM-SHA-256" <:+: mechanisms text) :
    authenticate env ci s (be 4 10 ++ text) =
      .ok { s.send (initialMessage (env.nonces s.drawn)) with
        scram := some (.start (env.nonces s.drawn)), drawn := s.drawn + 1 } := by
  have code : fromBe ((be 4 10 ++ text).take 4) = 10 := code_asked text (by decide)
  simp only [authenticate, if_neg (long_asked text), code, text_asked text, if_pos offers,
    Nat.reduceEqDiff, if_false, if_true]

theorem authenticate_first {st st' : ScramState} {fin : Bytes} (valid : Utf8.valid text = true)
    (known : s.scram = some st)
    (answers : st.clientFinal env.crypto text ci.password = .ok (fin, st')) :
    authenticate env ci s (be 4 11 ++ text) = .ok { s.send fin with scram := some st' } := by
  have code : fromBe ((be 4 11 ++ text).take 4) = 11 := code_asked text (by decide)
  simp only [authenticate, if_neg (long_asked text), code, text_asked text, if_pos valid, known,
    answers, Nat.reduceEqDiff, if_false, if_true]

theorem authenticate_final {st st' : ScramState} (valid : Utf8.valid text = true)
    (known : s.scram = some st) (accepts : st.verifyServer env.crypto text = .ok st') :
    authenticate env ci s (be 4 12 ++ text) = .ok { s with scram := some st' } := by
  have code : fromBe ((be 4 12 ++ text).take 4) = 12 := code_asked text (by decide)
  simp only [authenticate, if_neg (long_asked text), code, text_asked text, if_pos valid, known,
    accepts, Nat.reduceEqDiff, if_false, if_true]

/-! ## Notices -/

/-- Notices change nothing wherever they come. -/
theorem startup_notices (ms : List Message) :
    startup env ci s ms = startup env ci s (ms.filter fun m => ¬ Notice m) := by
  induction ms generalizing s with
  | nil => rfl
  | cons m ms ih =>
      by_cases notice : Notice m
      · rw [List.filter_cons_of_neg (by simpa using notice), startup, receive_notice notice]
        exact ih
      · rw [List.filter_cons_of_pos (by simpa using notice), startup, startup]
        split
        · rfl
        · rfl
        · exact ih

theorem startup_cons {m : Message} {ms : List Message} {s' : Session}
    (is : receive env ci s m = .ok (s', false)) :
    startup env ci s (m :: ms) = startup env ci s' ms := by
  rw [startup, is]

/-! ## The exchange -/

theorem plain_encode (codec : Base64.Codec) (t : Bytes) : Plain (codec.encode t) := by
  intro c mem
  obtain ⟨-, below, other⟩ := codec.encode_range t c mem
  exact ⟨Nat.lt_of_le_of_lt below (by decide), other⟩

theorem Plain.comma {t : Bytes} (plain : Plain t) : 44 ∉ t := fun mem => (plain 44 mem).2 rfl

theorem Ascii.append {u v : Bytes} (left : Ascii u) (right : Ascii v) : Ascii (u ++ v) := by
  intro c mem
  rcases List.mem_append.mp mem with before | behind
  · exact left c before
  · exact right c behind

theorem valid_first {crypto : Crypto} {cred : Credential} {nonce : Bytes} (plain : Plain nonce) :
    Utf8.valid (cred.first crypto nonce) = true := by
  have r : Ascii (bytesOf "r=" ++ nonce) :=
    Ascii.append (by decide) fun c mem => (plain c mem).1
  have s : Ascii (bytesOf ",s=" ++ crypto.base64.encode cred.salt) :=
    Ascii.append (by decide) fun c mem => (plain_encode _ _ c mem).1
  have i : Ascii (bytesOf ",i=" ++ Decimal.ascii (Decimal.itoa cred.iterations)) :=
    Ascii.append (by decide) fun c mem => Nat.lt_of_le_of_lt (itoa_range mem).2 (by decide)
  have whole := Utf8.valid_of_ascii ((r.append s).append i)
  rwa [← List.append_assoc, ← List.append_assoc] at whole

theorem valid_final {cred : Credential} {crypto : Crypto} {auth : Bytes} :
    Utf8.valid (cred.final crypto auth) = true := by
  apply Utf8.valid_of_ascii
  exact Ascii.append (by decide) fun c mem => (plain_encode _ _ c mem).1

/-- The client takes a server's first message under its own nonce. -/
theorem accepts_first {crypto : Crypto} {password salt own nonce : Bytes} {i : Nat}
    (plain : Plain (nonce ++ own)) (capped : i ≤ maxIterations) :
    Accepts crypto nonce
      ((Credential.ofPassword crypto password salt i).first crypto (nonce ++ own)) (nonce ++ own)
      salt i := by
  have small : i < 2 ^ 32 := Nat.lt_of_le_of_lt capped (by decide)
  refine ⟨⟨crypto.base64.encode salt, ?_, crypto.base64.decode_encode salt⟩, ⟨own, rfl⟩, capped⟩
  exact attrs_first plain.comma (plain_encode _ salt).comma small

theorem proofIn_finalMessage {crypto : Crypto} {password bare first nonce salt : Bytes} {i : Nat} :
    proofIn crypto nonce (finalMessage crypto password bare first nonce salt i) =
      some (clientProof crypto (hi crypto password salt i)
        (authMessage crypto bare first nonce)) := by
  rw [proofIn, finalMessage, if_pos (List.prefix_append _ _), List.drop_left,
    crypto.base64.decode_encode]

/-- The pairs of a startup packet, up to the empty name behind them. -/
def readPairs : Nat → Bytes → Option (List (Bytes × Bytes))
  | 0, _ => none
  | fuel + 1, b =>
      match splitOnce 0 b with
      | none => none
      | some (k, rest) =>
          if k = [] then if rest = [] then some [] else none
          else
            match splitOnce 0 rest with
            | none => none
            | some (v, rest) => (readPairs fuel rest).map ((k, v) :: ·)

/-- A startup packet as the server reads it: its length, the protocol's version, and pairs. -/
def readStartup (packet : Bytes) : Option (List (Bytes × Bytes)) :=
  if fromBe (packet.take 4) = packet.length ∧ fromBe ((packet.drop 4).take 4) = 196608 then
    readPairs packet.length (packet.drop 8)
  else none

theorem splitOnce_append {u v : Bytes} (plain : 0 ∉ u) :
    splitOnce 0 (u ++ 0 :: v) = some (u, v) := by
  have front : ∀ c ∈ u, decide (c ≠ 0) = true := fun c mem =>
    decide_eq_true fun zero => plain (zero ▸ mem)
  have mem : 0 ∈ u ++ 0 :: v := List.mem_append_right _ List.mem_cons_self
  rw [splitOnce, if_pos mem, List.takeWhile_append_of_pos front, List.dropWhile_append_of_pos front]
  simp

/-- Pairs that can be read: named, and without a zero. -/
def Readable (kvs : List (Bytes × Bytes)) : Prop := ∀ kv ∈ kvs, kv.1 ≠ [] ∧ 0 ∉ kv.1 ∧ 0 ∉ kv.2

instance (kvs : List (Bytes × Bytes)) : Decidable (Readable kvs) :=
  decidable_of_iff (kvs.all fun kv => kv.1 ≠ [] && (0 ∉ kv.1 && 0 ∉ kv.2)) (by simp [Readable])

theorem readPairs_pairs {kvs : List (Bytes × Bytes)} {fuel : Nat} (readable : Readable kvs)
    (enough : kvs.length < fuel) :
    readPairs fuel (kvs.flatMap (fun kv => kv.1 ++ [0] ++ kv.2 ++ [0]) ++ [0]) = some kvs := by
  induction kvs generalizing fuel with
  | nil =>
      obtain ⟨fuel, rfl⟩ := Nat.exists_eq_add_of_lt enough
      rfl
  | cons kv kvs ih =>
      obtain ⟨named, k_plain, v_plain⟩ := readable kv List.mem_cons_self
      cases fuel with
      | zero => cases enough
      | succ fuel =>
          have rest := ih (fun kv mem => readable kv (List.mem_cons_of_mem _ mem))
            (Nat.lt_of_succ_lt_succ enough)
          have split : (kv :: kvs).flatMap (fun kv => kv.1 ++ [0] ++ kv.2 ++ [0]) ++ [0] =
              kv.1 ++ 0 :: (kv.2 ++ 0 :: (kvs.flatMap (fun kv => kv.1 ++ [0] ++ kv.2 ++ [0]) ++
                [0])) := by
            simp
          rw [split, readPairs, splitOnce_append k_plain]
          simp only [if_neg named, splitOnce_append v_plain, rest, Option.map_some]

theorem readable_params {ci : ConnInfo} {options : Option Bytes} {replication : Bool}
    (user : 0 ∉ ci.user) (db : 0 ∉ ci.db) (own : ∀ o ∈ ci.options, 0 ∉ o)
    (given : ∀ o ∈ options, 0 ∉ o) : Readable (ci.params options replication) := by
  have merged : ∀ o ∈ ci.merged options, 0 ∉ o := by
    intro o mem
    unfold ConnInfo.merged at mem
    split at mem
    · rename_i a b is_a
      obtain rfl := Option.mem_some_iff.mp mem
      intro zero
      simp only [List.mem_append] at zero
      obtain (inside | space) | inside := zero
      · exact own a is_a inside
      · revert space
        decide
      · exact given b rfl inside
    · rcases Option.or_eq_some_iff.mp mem with is | ⟨-, is⟩
      · exact own o is
      · exact given o is
  have fixed : Readable [(bytesOf "client_encoding", bytesOf "UTF8"),
      (bytesOf "TimeZone", bytesOf "UTC"), (bytesOf "DateStyle", bytesOf "ISO"),
      (bytesOf "IntervalStyle", bytesOf "postgres"), (bytesOf "extra_float_digits", bytesOf "3"),
      (bytesOf "bytea_output", bytesOf "hex"),
      (bytesOf "idle_in_transaction_session_timeout", bytesOf "0")] := by decide
  have logical : Readable (if replication then [(bytesOf "replication", bytesOf "database")] else
      []) := by
    cases replication <;> decide
  have user_name : bytesOf "user" ≠ [] ∧ 0 ∉ bytesOf "user" := by decide
  have db_name : bytesOf "database" ≠ [] ∧ 0 ∉ bytesOf "database" := by decide
  have options_name : bytesOf "options" ≠ [] ∧ 0 ∉ bytesOf "options" := by decide
  rw [ConnInfo.params, Readable, List.forall_mem_append, List.forall_mem_append,
    List.forall_mem_cons, List.forall_mem_cons]
  refine ⟨⟨⟨⟨user_name.1, user_name.2, user⟩, ⟨db_name.1, db_name.2, db⟩, fixed⟩, logical⟩, ?_⟩
  intro kv mem
  obtain ⟨o, is, rfl⟩ := Option.map_eq_some_iff.mp (Option.mem_toList.mp mem)
  exact ⟨options_name.1, options_name.2, merged o is⟩

theorem length_le_pairs (kvs : List (Bytes × Bytes)) :
    kvs.length ≤ (kvs.flatMap fun kv => kv.1 ++ [0] ++ kv.2 ++ [0]).length := by
  induction kvs with
  | nil => exact Nat.le_refl 0
  | cons kv kvs ih =>
      rw [List.flatMap_cons, List.length_append, List.length_cons, Nat.add_comm]
      apply Nat.add_le_add _ ih
      simp only [List.length_append, List.length_singleton]
      omega

/-- Whatever stands in the URL, short of a zero, the server reads the session's parameters and no
others. -/
theorem readStartup_startupMessage (ci : ConnInfo) (options : Option Bytes) (replication : Bool)
    (user : 0 ∉ ci.user) (db : 0 ∉ ci.db) (own : ∀ o ∈ ci.options, 0 ∉ o)
    (given : ∀ o ∈ options, 0 ∉ o)
    (fits : (ci.startupMessage options replication).length < 2 ^ 32) :
    readStartup (ci.startupMessage options replication) = some (ci.params options replication) := by
  have readable : Readable (ci.params options replication) :=
    readable_params user db own given
  let pairs := (ci.params options replication).flatMap fun kv => kv.1 ++ [0] ++ kv.2 ++ [0]
  let body := be 4 196608 ++ pairs ++ [0]
  have body_length : body.length = 4 + pairs.length + 1 := by
    rw [List.length_append, List.length_append, Copy.length_be, List.length_singleton]
  have packet : ci.startupMessage options replication = be 4 (body.length + 4) ++ body := rfl
  rw [packet] at fits ⊢
  have length : (be 4 (body.length + 4) ++ body).length = body.length + 4 := by
    rw [List.length_append, Copy.length_be, Nat.add_comm]
  have counted : fromBe ((be 4 (body.length + 4) ++ body).take 4) = body.length + 4 := by
    rw [List.take_left' Copy.length_be]
    exact Copy.fromBe_be (length ▸ fits)
  have behind : (be 4 (body.length + 4) ++ body).drop 4 = be 4 196608 ++ (pairs ++ [0]) := by
    rw [List.drop_left' Copy.length_be]
    exact List.append_assoc _ _ _
  have version : fromBe ((be 4 196608 ++ (pairs ++ [0])).take 4) = 196608 := by
    rw [List.take_left' Copy.length_be]
    exact Copy.fromBe_be (by decide)
  have rest : (be 4 (body.length + 4) ++ body).drop 8 = pairs ++ [0] := by
    rw [show 8 = 4 + 4 from rfl, ← List.drop_drop, behind, List.drop_left' Copy.length_be]
  have enough : (ci.params options replication).length < body.length + 4 := by
    have few : _ ≤ pairs.length := length_le_pairs (ci.params options replication)
    omega
  rw [readStartup, counted, behind, version, length, rest, if_pos ⟨rfl, rfl⟩]
  exact readPairs_pairs readable enough

/-- Options from the URL and from the caller are one parameter. -/
theorem readStartup_pencil :
    let url := { pencilUrl with options := some (bytesOf "-c work_mem=4MB") }
    let given := some (bytesOf "-c lock_timeout=5s")
    readStartup (url.startupMessage given true) = some (url.params given true) ∧
      (bytesOf "options", bytesOf "-c work_mem=4MB -c lock_timeout=5s") ∈
        url.params given true := by
  intro url given
  constructor
  · apply readStartup_startupMessage
    · decide
    · decide
    · exact fun o is => Option.mem_some_iff.mp is ▸ (by decide)
    · exact fun o is => Option.mem_some_iff.mp is ▸ (by decide)
    · decide +kernel
  · decide +kernel

end Apitap.Scram
