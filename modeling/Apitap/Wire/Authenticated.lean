import Apitap.Wire.Startup

/-!
# What a startup proves, and what it gives away

Whatever messages come, a connection is ready only behind a signature of the server over the
exchange begun last, once one was begun; and the password leaves only where the URL or the
environment lets it. Without that, all the server learns of it is what its salted form proves.
-/

namespace Apitap.Scram

open Foundation
open Copy (be fromBe)
open Walsender (Message)

/-- The code of an authentication request. -/
def request (m : Message) : Option Nat :=
  if m.1 = 82 ∧ 4 ≤ m.2.length then some (fromBe (m.2.take 4)) else none

/-- What stands behind the code. -/
def requestText (m : Message) : Bytes := m.2.drop 4

variable {env : Env} {ci : ConnInfo} {s s' : Session} {m : Message} {ms seen : List Message}

/-! ## One message -/

/-- What a message that does not end the startup comes to. -/
inductive Takes (env : Env) (ci : ConnInfo) (s : Session) (m : Message) : Session → Prop
  | idle (other : ∀ c ∈ request m, c = 0) : Takes env ci s m s
  | cleartext (code : request m = some 3) (allowed : downgradeOk env ci = true) :
      Takes env ci s m (s.send (passwordMessage ci.password))
  | md5 (code : request m = some 5) (allowed : downgradeOk env ci = true) :
      Takes env ci s m (s.send (passwordMessage
        (md5Password env.crypto ci.user ci.password ((requestText m).take 4))))
  | sasl (code : request m = some 10) :
      Takes env ci s m { s.send (initialMessage (env.nonces s.drawn)) with
        scram := some (.start (env.nonces s.drawn)), drawn := s.drawn + 1 }
  | first {st st' : ScramState} {fin : Bytes} (code : request m = some 11)
      (begun : s.scram = some st)
      (answers : st.clientFinal env.crypto (requestText m) ci.password = .ok (fin, st')) :
      Takes env ci s m { s.send fin with scram := some st' }
  | final {st st' : ScramState} (code : request m = some 12) (begun : s.scram = some st)
      (accepts : st.verifyServer env.crypto (requestText m) = .ok st') :
      Takes env ci s m { s with scram := some st' }

theorem request_of {msg : Bytes} (long : ¬ msg.length < 4) :
    request (82, msg) = some (fromBe (msg.take 4)) := if_pos ⟨rfl, Nat.le_of_not_lt long⟩

theorem takes_authenticate {msg : Bytes} (is : authenticate env ci s msg = .ok s') :
    Takes env ci s (82, msg) s' := by
  simp only [authenticate] at is
  split_ifs at is with short ok clear allowed digest allowed brief sasl offered first utf8 final
    text
  · cases is
    refine .idle fun c mem => ?_
    rw [request_of short, Option.mem_some_iff] at mem
    exact mem.symm.trans ok
  · cases is
    exact .cleartext ((request_of short).trans (congrArg some clear)) allowed
  · cases is
    exact .md5 ((request_of short).trans (congrArg some digest)) allowed
  · cases is
    exact .sasl ((request_of short).trans (congrArg some sasl))
  · split at is
    · cases is
    · rename_i st begun
      split at is
      · cases is
      · rename_i fin st' answers
        cases is
        exact .first ((request_of short).trans (congrArg some first)) begun answers
  · split at is
    · cases is
    · rename_i st begun
      split at is
      · cases is
      · rename_i st' accepts
        cases is
        exact .final ((request_of short).trans (congrArg some final)) begun accepts

theorem takes_receive (is : receive env ci s m = .ok (s', false)) : Takes env ci s m s' := by
  obtain ⟨tag, msg⟩ := m
  rw [receive] at is
  split_ifs at is with auth quiet ready
  · split at is
    · cases is
    · rename_i same
      cases is
      obtain rfl : tag = 82 := auth
      exact takes_authenticate same
  · cases is
    refine .idle fun c mem => ?_
    rw [request, if_neg fun both => auth both.1] at mem
    cases mem
  · split at is
    · cases is
    · split at is <;> cases is

/-- A server is ready only when what was begun is verified. -/
theorem settled_receive (is : receive env ci s m = .ok (s', true)) :
    m.1 = 90 ∧ s' = s ∧ ∀ st ∈ s.scram, st.verified = true := by
  obtain ⟨tag, msg⟩ := m
  rw [receive] at is
  split_ifs at is with auth quiet ready
  · split at is <;> cases is
  · cases is
  · refine ⟨ready, ?_⟩
    split at is
    · rename_i none_
      cases is
      refine ⟨rfl, fun st mem => ?_⟩
      rw [none_] at mem
      cases mem
    · rename_i st begun
      split at is
      · cases is
      · rename_i verified
        cases is
        refine ⟨rfl, fun st' mem => ?_⟩
        rw [begun, Option.mem_some_iff] at mem
        subst mem
        rw [ScramState.requireVerified] at verified
        split_ifs at verified with yes
        exact yes

/-! ## A conversation -/

/-- Messages taken one after another. -/
inductive Talks (env : Env) (ci : ConnInfo) (s : Session) : List Message → Session → Prop
  | nil : Talks env ci s [] s
  | snoc {seen : List Message} {s₁ s₂ : Session} {m : Message} (before : Talks env ci s seen s₁)
      (takes : Takes env ci s₁ m s₂) : Talks env ci s (seen ++ [m]) s₂

theorem Talks.onward {s₁ s₂ : Session} (takes : Takes env ci s m s₁)
    (after : Talks env ci s₁ ms s₂) : Talks env ci s (m :: ms) s₂ := by
  induction after with
  | nil => exact .snoc .nil takes
  | snoc before last ih => exact .snoc ih last

/-- A startup takes the messages it has seen; where it is ready, the next one says so. -/
theorem startup_talks (env : Env) (ci : ConnInfo) (s : Session) (ms : List Message) :
    ∃ seen rest, ms = seen ++ rest ∧ Talks env ci s seen (startup env ci s ms).1 ∧
      ((startup env ci s ms).2 = some (.ok ()) →
        (∃ status later, rest = (90, status) :: later) ∧
          ∀ st ∈ (startup env ci s ms).1.scram, st.verified = true) := by
  induction ms generalizing s with
  | nil => exact ⟨[], [], rfl, .nil, fun wrong => (by cases wrong)⟩
  | cons m ms ih =>
      rw [startup]
      split
      · refine ⟨[], m :: ms, rfl, .nil, fun wrong => (by cases wrong)⟩
      · rename_i s' is
        obtain ⟨tag, rfl, verified⟩ := settled_receive is
        refine ⟨[], m :: ms, rfl, .nil, fun _ => ⟨⟨m.2, ms, ?_⟩, verified⟩⟩
        exact congrArg (· :: ms) (Prod.ext tag rfl)
      · rename_i s' is
        obtain ⟨seen, rest, rfl, talks, ready⟩ := ih s'
        exact ⟨m :: seen, rest, rfl, .onward (takes_receive is) talks, ready⟩

/-! ## What an exchange has come to -/

section Exchange

variable (env : Env) (ci : ConnInfo)

/-- The last of the server's first messages was accepted, and this is the signature that belongs
to it. -/
def SignedIn (nonce : Bytes) (msgs : List Message) (signed : Bytes) : Prop :=
  ∃ before first after r salt i, msgs = before ++ first :: after ∧ request first = some 11 ∧
    (∀ m ∈ after, request m ≠ some 11) ∧ Accepts env.crypto nonce (requestText first) r salt i ∧
    signed = signature env.crypto ci.password (bytesOf "n=,r=" ++ nonce) (requestText first) r
      salt i

/-- The server sent the signature of the exchange so far. -/
def ServerProved (nonce : Bytes) (msgs : List Message) : Prop :=
  ∃ before final after signed trail, msgs = before ++ final :: after ∧ request final = some 12 ∧
    SignedIn env ci nonce before signed ∧
    requestText final = bytesOf "v=" ++ env.crypto.base64.encode signed ++ trail ∧
      ScramState.Trail trail

/-- A message to the server: SCRAM's own ones, and a password where it is let out. -/
inductive Sent (seen : List Message) : Message → Prop
  | initial (k : Nat) : Sent seen (112, initialMessage (env.nonces k))
  | final {first : Message} {r salt : Bytes} {i : Nat} (k : Nat) (came : first ∈ seen)
      (code : request first = some 11)
      (accepts : Accepts env.crypto (env.nonces k) (requestText first) r salt i) :
      Sent seen (112, finalMessage env.crypto ci.password (bytesOf "n=,r=" ++ env.nonces k)
        (requestText first) r salt i)
  | cleartext (allowed : downgradeOk env ci = true) : Sent seen (112, passwordMessage ci.password)
  | md5 (allowed : downgradeOk env ci = true) (salt : Bytes) :
      Sent seen (112, passwordMessage (md5Password env.crypto ci.user ci.password salt))

/-- A state and the messages since its exchange was begun. -/
structure Exchange (nonce : Bytes) (since : List Message) (st : ScramState) : Prop where
  ours : st.nonce = nonce
  bare : st.clientFirstBare = bytesOf "n=,r=" ++ nonce
  signed : ∀ signed ∈ st.serverSignature, SignedIn env ci nonce since signed
  proved : st.verified = true → ServerProved env ci nonce since

/-- How many exchanges were begun. -/
def begun (seen : List Message) : Nat := seen.countP fun m => request m = some 10

/-- No exchange was begun. -/
def Unasked (seen : List Message) : Prop := ∀ m ∈ seen, request m ≠ some 10

/-- The session is that of the exchange begun last. -/
inductive Since (seen : List Message) : Option ScramState → Prop
  | nothing (unasked : Unasked seen) : Since seen none
  | exchanging {before since : List Message} {asked : Message} {st : ScramState}
      (split : seen = before ++ asked :: since) (code : request asked = some 10)
      (unasked : Unasked since) (exchange : Exchange env ci (env.nonces (begun before)) since st) :
      Since seen (some st)

/-- What holds of a session behind the messages it has taken. -/
structure Traced (seen : List Message) (s : Session) : Prop where
  drawn : s.drawn = begun seen
  since : Since env ci seen s.scram
  sent : ∀ f ∈ s.sent, Sent env ci seen f

end Exchange

variable {nonce signed : Bytes} {msgs since : List Message} {st : ScramState}

theorem SignedIn.snoc (before : SignedIn env ci nonce msgs signed) (other : request m ≠ some 11) :
    SignedIn env ci nonce (msgs ++ [m]) signed := by
  obtain ⟨front, first, after, r, salt, i, rfl, code, last, accepts, is⟩ := before
  refine ⟨front, first, after ++ [m], r, salt, i, ?_, code, ?_, accepts, is⟩
  · rw [List.append_assoc, List.cons_append]
  · intro m' mem
    rcases List.mem_append.mp mem with earlier | now
    · exact last m' earlier
    · rwa [List.mem_singleton.mp now]

theorem ServerProved.snoc (before : ServerProved env ci nonce msgs) (m : Message) :
    ServerProved env ci nonce (msgs ++ [m]) := by
  obtain ⟨front, final, after, signed, trail, rfl, rest⟩ := before
  refine ⟨front, final, after ++ [m], signed, trail, ?_, rest⟩
  rw [List.append_assoc, List.cons_append]

theorem Exchange.snoc (before : Exchange env ci nonce since st) (other : request m ≠ some 11) :
    Exchange env ci nonce (since ++ [m]) st := by
  refine ⟨before.ours, before.bare, ?_, fun verified => (before.proved verified).snoc m⟩
  intro signed known
  exact (before.signed signed known).snoc other

theorem Sent.mono {f : Message} (before : Sent env ci seen f) (rest : List Message) :
    Sent env ci (seen ++ rest) f := by
  cases before with
  | initial k => exact .initial k
  | final k came code accepts => exact .final k (List.mem_append_left _ came) code accepts
  | cleartext allowed => exact .cleartext allowed
  | md5 allowed salt => exact .md5 allowed salt

theorem begun_snoc : begun (seen ++ [m]) = begun seen + if request m = some 10 then 1 else 0 := by
  rw [begun, List.countP_append, List.countP_singleton]
  simp [begun]

theorem Unasked.snoc (before : Unasked seen) (other : request m ≠ some 10) :
    Unasked (seen ++ [m]) := by
  intro m' mem
  rcases List.mem_append.mp mem with earlier | now
  · exact before m' earlier
  · rwa [List.mem_singleton.mp now]

/-- A message that is no request of an exchange, and what it does to the exchange begun last. -/
theorem Since.snoc {x y : Option ScramState} (before : Since env ci seen x)
    (other : request m ≠ some 10) (none_ : x = none → y = none)
    (onward : ∀ nonce since st, x = some st → Exchange env ci nonce since st →
      ∃ st', y = some st' ∧ Exchange env ci nonce (since ++ [m]) st') :
    Since env ci (seen ++ [m]) y := by
  cases before with
  | nothing unasked =>
      rw [none_ rfl]
      exact .nothing (unasked.snoc other)
  | @exchanging before since asked st split code unasked exchange =>
      obtain ⟨st', rfl, exchange'⟩ := onward _ _ _ rfl exchange
      refine .exchanging ?_ code (unasked.snoc other) exchange'
      rw [split, List.append_assoc, List.cons_append]

theorem Since.ours (now : Since env ci seen (some st)) :
    ∃ k, st.nonce = env.nonces k ∧ st.clientFirstBare = bytesOf "n=,r=" ++ env.nonces k := by
  cases now with
  | @exchanging before since asked _ split code unasked exchange =>
      exact ⟨begun before, exchange.ours, exchange.bare⟩

/-! ## Runs -/

theorem Traced.new : Traced env ci [] .new := by
  refine ⟨rfl, .nothing ?_, ?_⟩
  · intro m mem
    cases mem
  · intro f mem
    cases mem

/-- One message keeps the trace. -/
theorem Traced.takes (traced : Traced env ci seen s) (takes : Takes env ci s m s') :
    Traced env ci (seen ++ [m]) s' := by
  have earlier : ∀ f ∈ s.sent, Sent env ci (seen ++ [m]) f := by
    intro f mem
    exact (traced.sent f mem).mono [m]
  have unbegun (other : request m ≠ some 10) : s.drawn = begun (seen ++ [m]) := by
    rw [begun_snoc, if_neg other, traced.drawn]
    rfl
  have idle (apart : request m ≠ some 10) (other : request m ≠ some 11) :
      Since env ci (seen ++ [m]) s.scram :=
    traced.since.snoc apart id fun nonce since st begun exchange =>
      ⟨st, begun, exchange.snoc other⟩
  have sends {body : Bytes} (now : Sent env ci (seen ++ [m]) (112, body)) :
      ∀ f ∈ (s.send body).sent, Sent env ci (seen ++ [m]) f := by
    intro f mem
    rcases List.mem_append.mp mem with before | last
    · exact earlier f before
    · rwa [List.mem_singleton.mp last]
  cases takes with
  | idle other =>
      have apart : ∀ c, c ≠ 0 → request m ≠ some c := fun c nonzero is => nonzero (other c is)
      exact ⟨unbegun (apart 10 (by decide)), idle (apart 10 (by decide)) (apart 11 (by decide)),
        earlier⟩
  | cleartext code allowed =>
      have apart : ∀ c, c ≠ 3 → request m ≠ some c := by
        intro c other is
        exact other (Option.some.inj (is.symm.trans code))
      exact ⟨unbegun (apart 10 (by decide)), idle (apart 10 (by decide)) (apart 11 (by decide)),
        sends (.cleartext allowed)⟩
  | md5 code allowed =>
      have apart : ∀ c, c ≠ 5 → request m ≠ some c := by
        intro c other is
        exact other (Option.some.inj (is.symm.trans code))
      exact ⟨unbegun (apart 10 (by decide)), idle (apart 10 (by decide)) (apart 11 (by decide)),
        sends (.md5 allowed _)⟩
  | sasl code =>
      refine ⟨?_, ?_, sends (.initial _)⟩
      · rw [begun_snoc, if_pos code, traced.drawn]
      · have fresh : Exchange env ci (env.nonces (begun seen)) []
            (.start (env.nonces s.drawn)) := by
          rw [traced.drawn]
          refine ⟨rfl, rfl, ?_, ?_⟩
          · intro signed known
            cases known
          · intro verified
            cases verified
        refine .exchanging rfl code ?_ fresh
        intro m' mem
        cases mem
  | @first st st' fin code known answers =>
      have apart : request m ≠ some 10 := by
        intro is
        cases code.symm.trans is
      obtain ⟨r, salt, i, accepts, rfl, rfl⟩ := ScramState.clientFinal_ok_iff.mp answers
      obtain ⟨k, ours, bare⟩ := (known ▸ traced.since).ours
      have sent : Sent env ci (seen ++ [m]) (112, finalMessage env.crypto ci.password
          st.clientFirstBare (requestText m) r salt i) := by
        rw [bare]
        exact .final k (List.mem_append_right _ (List.mem_singleton.mpr rfl)) code (ours ▸ accepts)
      refine ⟨unbegun apart, ?_, sends sent⟩
      refine traced.since.snoc apart (fun none_ => ?_) fun nonce since st' same exchange => ?_
      · rw [none_] at known
        cases known
      · obtain rfl := Option.some.inj (same.symm.trans known)
        refine ⟨_, rfl, exchange.ours, exchange.bare, ?_, fun verified => ?_⟩
        · intro signed is
          refine ⟨since, m, [], r, salt, i, rfl, code, ?_, exchange.ours ▸ accepts, ?_⟩
          · intro m' mem
            cases mem
          · rw [← exchange.bare]
            exact (Option.mem_some_iff.mp is).symm
        · exact (exchange.proved verified).snoc m
  | @final st st' code known accepts =>
      have apart : request m ≠ some 10 := by
        intro is
        cases code.symm.trans is
      obtain ⟨signed, trail, signature, text, trails, rfl⟩ :=
        ScramState.verifyServer_ok_iff.mp accepts
      have other : request m ≠ some 11 := by
        intro is
        cases code.symm.trans is
      refine ⟨unbegun apart, ?_, earlier⟩
      refine traced.since.snoc apart (fun none_ => ?_) fun nonce since st' same exchange => ?_
      · rw [none_] at known
        cases known
      · obtain rfl := Option.some.inj (same.symm.trans known)
        refine ⟨_, rfl, exchange.ours, exchange.bare, (exchange.snoc other).signed, fun _ => ?_⟩
        exact ⟨since, m, [], signed, trail, rfl, code, exchange.signed signed signature, text,
          trails⟩

theorem Traced.talks (traced : Traced env ci seen s) (talks : Talks env ci s ms s') :
    Traced env ci (seen ++ ms) s' := by
  induction talks with
  | nil => rwa [List.append_nil]
  | snoc before last ih =>
      rw [← List.append_assoc]
      exact ih.takes last

/-- Every run is traced over a front of the messages. -/
theorem traced_startup (env : Env) (ci : ConnInfo) (ms : List Message) :
    ∃ seen rest, ms = seen ++ rest ∧ Traced env ci seen (startup env ci .new ms).1 ∧
      ((startup env ci .new ms).2 = some (.ok ()) →
        (∃ status later, rest = (90, status) :: later) ∧
          ∀ st ∈ (startup env ci .new ms).1.scram, st.verified = true) := by
  obtain ⟨seen, rest, split, talks, settled⟩ := startup_talks env ci .new ms
  have traced := Traced.new.talks talks
  rw [List.nil_append] at traced
  exact ⟨seen, rest, split, traced, settled⟩

theorem connectInner_of {peer : Peer} {channel : Channel} {outcome : Option (Except Error Unit)}
    (dialled : ci.dial peer = .ok channel)
    (run : (startup env ci .new peer.messages).2 = outcome) :
    connectInner env ci peer = .ok (channel, (startup env ci .new peer.messages).1, outcome) := by
  rw [connectInner, dialled, ← run]

theorem connectInner_ok {peer : Peer} {channel : Channel} {outcome : Option (Except Error Unit)}
    (is : connectInner env ci peer = .ok (channel, s, outcome)) :
    ci.dial peer = .ok channel ∧ startup env ci .new peer.messages = (s, outcome) := by
  rw [connectInner] at is
  split at is
  · cases is
  · rename_i dialled
    have parts := Prod.ext_iff.mp (Except.ok.inj is)
    exact ⟨dialled.trans (congrArg _ parts.1), parts.2⟩

/-- A connection is ready with no exchange begun, or with the one begun last proved by the
server: it signed that exchange, under a first message that continues the nonce drawn for it. -/
theorem ready_proved (env : Env) (ci : ConnInfo) (peer : Peer) (channel : Channel) (s : Session)
    (ready : connectInner env ci peer = .ok (channel, s, some (.ok ()))) :
    ∃ seen status later, peer.messages = seen ++ (90, status) :: later ∧
      (Unasked seen ∨ ∃ before asked since, seen = before ++ asked :: since ∧
        request asked = some 10 ∧ Unasked since ∧
        ServerProved env ci (env.nonces (begun before)) since) := by
  obtain ⟨-, run⟩ := connectInner_ok ready
  obtain ⟨seen, rest, split, traced, settled⟩ := traced_startup env ci peer.messages
  rw [run] at traced settled
  obtain ⟨⟨status, later, rfl⟩, verified⟩ := settled rfl
  refine ⟨seen, status, later, split, ?_⟩
  have now := traced.since
  cases begun_ : s.scram with
  | none =>
      rw [begun_] at now
      cases now with
      | nothing unasked => exact .inl unasked
  | some st =>
      have checked := verified st begun_
      rw [begun_] at now
      cases now with
      | exchanging split code unasked exchange =>
          exact .inr ⟨_, _, _, split, code, unasked, exchange.proved checked⟩

/-! A server that knows the password `pencil`, and a URL that asks for TLS. -/

/-- The keys of one exchange: the password `pencil` under a salt of eight bytes, twice. -/
def pencilKeys (key data : Bytes) : Nat :=
  let first := 0x0a014d0ea2bd6d0614113046f077f26a1982547c164ea0e88d299dd4914f4af8
  let salted := 0x84ada86ba77572e9fb16ee162c6f71f23d1d9869ee624b2b2e364f620fef8dbb
  let stored := 0xf8d5ba4fff9b651d27c8e66683f08a5aaf40c4dfefa2f3dfcb7009230e39322c
  let server := 0x4bf1367fdd6b6f5ebc02405bed6d688956739037cb3c3f759cf968f1ef84b6ad
  if key = bytesOf "pencil" then
    if data = be 32 first then 0x8eace56505c81fefef07de50dc188398249fcc15f82cebc3a31fd2b69ea0c743
    else first
  else if key = be 32 salted then
    if data = bytesOf "Client Key" then
      0x4d2f6e00c4bb5aa30cd275b0d5608c0941d2bc08d0f83ba244a7ee9875eabfd3
    else server
  else if key = be 32 stored then
    0x963eed708be64f132e2c071d591ef550d3490f9678d515c87e30ee5105802819
  else if key = be 32 server then
    0xbcee10c49a337c1c055e4bc330adf9b355a228aee190fb19914a461b74fa2d68
  else 0

def pencilCrypto : Crypto where
  hmac key data := be 32 (pencilKeys key data)
  sha256 _ := be 32 0xf8d5ba4fff9b651d27c8e66683f08a5aaf40c4dfefa2f3dfcb7009230e39322c
  md5Hex _ := bytesOf "d41d8cd98f00b204e9800998ecf8427e"
  base64 := Base64.standard
  length_hmac _ _ := Copy.length_be

def pencilEnv : Env where
  crypto := pencilCrypto
  nonces _ := bytesOf "c1e09f7a4d2b4c3e8f6a5b4c3d2e1f00"
  insecureAuth := none
  lossy b := String.ofList (b.map fun c => Char.ofNat c.toNat)
  debugStr b := String.ofList (b.map fun c => Char.ofNat c.toNat)
  nonce_plain _ := by decide

def pencilUrl : ConnInfo where
  host := "localhost"
  port := 5432
  user := bytesOf "user"
  password := bytesOf "pencil"
  db := bytesOf "db"
  ssl := .require
  options := none

/-- A server of that password. -/
def pencilServer : Peer where
  answer := some 83
  handshake _ := .ok ()
  messages :=
    [(82, be 4 10 ++ bytesOf "SCRAM-SHA-256"),
      (82, be 4 11 ++ bytesOf "r=c1e09f7a4d2b4c3e8f6a5b4c3d2e1f009ZpW,s=W22ZaJ0SNZg=,i=2"),
      (82, be 4 12 ++ bytesOf "v=vO4QxJozfBwFXkvDMK35s1WiKK7hkPsZkUpGG3T6LWg="),
      (82, be 4 0), (83, bytesOf "TimeZone"), (90, bytesOf "I")]

theorem ready_proved_pencil : ∃ channel s,
    connectInner pencilEnv pencilUrl pencilServer = .ok (channel, s, some (.ok ())) ∧
    ∃ seen status later, pencilServer.messages = seen ++ (90, status) :: later ∧
      (Unasked seen ∨ ∃ before asked since, seen = before ++ asked :: since ∧
        request asked = some 10 ∧ Unasked since ∧
        ServerProved pencilEnv pencilUrl (pencilEnv.nonces (begun before)) since) := by
  have run : (startup pencilEnv pencilUrl .new pencilServer.messages).2 = some (.ok ()) := by
    decide +kernel
  have ready := connectInner_of (show pencilUrl.dial pencilServer = .ok (.tls false) from rfl) run
  exact ⟨_, _, ready, ready_proved _ _ _ _ _ ready⟩

/-! ## The password -/

section Password

variable {pw : Bytes}

/-- The salted forms of two passwords are the same. -/
def SaltedAlike (crypto : Crypto) (pw pw' : Bytes) : Prop :=
  ∀ salt i, i ≤ maxIterations → hi crypto pw' salt i = hi crypto pw salt i

theorem clientFinal_congr {st : ScramState} {crypto : Crypto} {pw' text : Bytes}
    (alike : SaltedAlike crypto pw pw') :
    st.clientFinal crypto text pw' = st.clientFinal crypto text pw := by
  rw [ScramState.clientFinal, ScramState.clientFinal]
  split
  · rename_i r s i found
    split_ifs with strange past
    · rfl
    · split
      · rfl
      · rename_i salt decoded
        rw [alike salt i (Nat.le_of_not_lt past)]
    · rfl
  · rfl

theorem authenticate_congr {msg : Bytes} (alike : SaltedAlike env.crypto ci.password pw)
    (kept : downgradeOk env ci = false) :
    authenticate env { ci with password := pw } s msg = authenticate env ci s msg := by
  have kept' : downgradeOk env { ci with password := pw } = false := kept
  simp only [authenticate, kept, kept', clientFinal_congr alike, Bool.false_eq_true, if_false]

theorem startup_congr (alike : SaltedAlike env.crypto ci.password pw)
    (kept : downgradeOk env ci = false) :
    startup env { ci with password := pw } s ms = startup env ci s ms := by
  induction ms generalizing s with
  | nil => rfl
  | cons m ms ih =>
      have same : receive env { ci with password := pw } s m = receive env ci s m := by
        rw [receive, receive, authenticate_congr alike kept]
      rw [startup, startup, same]
      split
      · rfl
      · rfl
      · exact ih

end Password

theorem dial_verifyFull {peer : Peer} {channel : Channel} (full : ci.ssl = .verifyFull)
    (dialled : ci.dial peer = .ok channel) : channel = .tls true := by
  rw [ConnInfo.dial, full] at dialled
  simp only [decide_true] at dialled
  split at dialled
  · cases dialled
  · rename_i upgraded
    cases dialled
    rw [tlsUpgrade] at upgraded
    split at upgraded
    · cases upgraded
    · split_ifs at upgraded
      · cases upgraded
      · split at upgraded
        · cases upgraded
        · cases upgraded
          rfl
  · cases dialled

/-- Unless the environment lets it out: every message but SCRAM's own ones is over a verified
channel, and where the URL asks for none, a connection is the same for every password with the
same salted forms. -/
theorem password_kept (env : Env) (ci : ConnInfo) (peer : Peer)
    (secure : authDowngradeAllowed env = false) :
    (∀ channel s outcome, connectInner env ci peer = .ok (channel, s, outcome) →
      ∀ f ∈ s.sent, Sent env ci peer.messages f ∧
        (downgradeOk env ci = true → channel = .tls true)) ∧
      (ci.ssl ≠ .verifyFull → ∀ pw, SaltedAlike env.crypto ci.password pw →
        connectInner env { ci with password := pw } peer = connectInner env ci peer) := by
  constructor
  · intro channel s outcome is f mem
    obtain ⟨dialled, run⟩ := connectInner_ok is
    obtain ⟨seen, rest, split, traced, -⟩ := traced_startup env ci peer.messages
    rw [run] at traced
    refine ⟨split ▸ (traced.sent f mem).mono rest, fun allowed => ?_⟩
    rw [downgradeOk, secure, Bool.or_false, decide_eq_true_iff] at allowed
    exact dial_verifyFull allowed dialled
  · intro unasked pw alike
    have kept : downgradeOk env ci = false := by
      rw [downgradeOk, secure, Bool.or_false]
      exact decide_eq_false unasked
    rw [connectInner, connectInner, startup_congr alike kept]
    rfl

theorem password_kept_pencil :
    (∀ channel s outcome,
      connectInner pencilEnv pencilUrl pencilServer = .ok (channel, s, outcome) → ∀ f ∈ s.sent,
        Sent pencilEnv pencilUrl pencilServer.messages f ∧
        (downgradeOk pencilEnv pencilUrl = true → channel = .tls true)) ∧
      (pencilUrl.ssl ≠ .verifyFull → ∀ pw, SaltedAlike pencilEnv.crypto pencilUrl.password pw →
        connectInner pencilEnv { pencilUrl with password := pw } pencilServer =
          connectInner pencilEnv pencilUrl pencilServer) :=
  password_kept pencilEnv pencilUrl pencilServer rfl

end Apitap.Scram
