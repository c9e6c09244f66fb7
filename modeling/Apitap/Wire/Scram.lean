import Apitap.Foundation.Base64
import Apitap.Foundation.Decimal
import Apitap.Wire.CopyOut
import Mathlib.Data.List.TakeWhile
import Mathlib.Data.List.Forall2

/-!
# SCRAM-SHA-256

The client's side of the exchange, without channel binding: the proof of its password under a
salt and a count the server names, and the check of the server's own signature. The hash
functions and the base64 codec are parameters.
-/

namespace Apitap.Scram

open Foundation
open Copy (be)

/-- HMAC-SHA-256, SHA-256, MD5 in hexadecimal, and base64. -/
structure Crypto where
  hmac : Bytes → Bytes → Bytes
  sha256 : Bytes → Bytes
  md5Hex : Bytes → Bytes
  base64 : Base64.Codec
  length_hmac : ∀ key data, (hmac key data).length = 32

/-- The bytes of a text of ASCII characters. -/
def bytesOf (s : String) : Bytes := s.toList.map fun c => UInt8.ofNat c.toNat

def Ascii (t : Bytes) : Prop := ∀ c ∈ t, c < 128

/-- ASCII without a comma. -/
def Plain (t : Bytes) : Prop := ∀ c ∈ t, c < 128 ∧ c ≠ 44

instance (t : Bytes) : Decidable (Ascii t) :=
  decidable_of_iff (t.all (· < 128)) (by simp [Ascii])

instance (t : Bytes) : Decidable (Plain t) :=
  decidable_of_iff (t.all fun c => c < 128 && c ≠ 44) (by simp [Plain])

def badScram : Error := .transfer "walsender: malformed SCRAM exchange"

/-- An unsigned 32-bit number as Rust parses it. -/
def parseU32 (s : Bytes) : Option Nat :=
  let digits := if s.head? = some 43 then s.drop 1 else s
  if digits ≠ [] ∧ digits.all fun c => 48 ≤ c && c ≤ 57 then
    let n := Radix.value 10 (digits.map fun c => c.toNat - 48)
    if n < 2 ^ 32 then some n else none
  else none

/-- What stands before the first such byte and behind it. -/
def splitOnce (at_ : UInt8) (part : Bytes) : Option (Bytes × Bytes) :=
  if at_ ∈ part then some (part.takeWhile (· ≠ at_), (part.dropWhile (· ≠ at_)).drop 1) else none

/-- Two texts of one length, byte by byte. -/
def xorBytes (u v : Bytes) : Bytes := List.zipWith (· ^^^ ·) u v

section Hi

variable (crypto : Crypto) (password : Bytes)

/-- The turns behind the first one. -/
def hiTurns : Nat → Bytes → Bytes → Bytes
  | 0, _, out => out
  | n + 1, u, out =>
      let u := crypto.hmac password u
      hiTurns n u (xorBytes out u)

/-- PBKDF2 with one block of output. -/
def hi (salt : Bytes) (iterations : Nat) : Bytes :=
  let u := crypto.hmac password (salt ++ be 4 1)
  hiTurns crypto password (iterations - 1) u u

end Hi

/-! ## The server's first message -/

/-- The attributes read so far: nonce, salt, and iteration count. -/
structure Attrs where
  r : Option Bytes
  s : Option Bytes
  i : Option Nat

def Attrs.read (a : Attrs) (part : Bytes) : Attrs :=
  match splitOnce 61 part with
  | some ([114], v) => { a with r := some v }
  | some ([115], v) => { a with s := some v }
  | some ([105], v) => { a with i := parseU32 v }
  | _ => a

def attrs (serverFirst : Bytes) : Attrs :=
  (serverFirst.splitOn 44).foldl Attrs.read ⟨none, none, none⟩

def maxIterations : Nat := 1000000

def pastCap (i : Nat) : Error :=
  .transfer ("walsender: SCRAM server-first demands i=" ++ toString i ++ " PBKDF2 iterations, " ++
    "past the " ++ toString maxIterations ++ " cap. Real servers use 4096–15000; a count this " ++
    "size is a misconfigured or hostile peer, and obeying it would pin a core before " ++
    "authentication.")

def nonceMismatch : Error := .transfer "walsender: SCRAM nonce mismatch"

/-- The client's last message, short of its proof. -/
def withoutProof (crypto : Crypto) (r : Bytes) : Bytes :=
  bytesOf "c=" ++ crypto.base64.encode (bytesOf "n,,") ++ bytesOf ",r=" ++ r

/-- What both signatures are over. -/
def authMessage (crypto : Crypto) (clientFirstBare serverFirst r : Bytes) : Bytes :=
  clientFirstBare ++ [44] ++ serverFirst ++ [44] ++ withoutProof crypto r

section Keys

variable (crypto : Crypto) (salted : Bytes)

def clientKey : Bytes := crypto.hmac salted (bytesOf "Client Key")

def storedKey : Bytes := crypto.sha256 (clientKey crypto salted)

def serverKey : Bytes := crypto.hmac salted (bytesOf "Server Key")

def clientProof (auth : Bytes) : Bytes :=
  xorBytes (clientKey crypto salted) (crypto.hmac (storedKey crypto salted) auth)

end Keys

/-! ## The state of an exchange -/

/-- The server's signature is known once its first message is read; the flag is set by a check
of it alone. -/
structure ScramState where
  nonce : Bytes
  clientFirstBare : Bytes
  serverSignature : Option Bytes
  verified : Bool

namespace ScramState

def start (nonce : Bytes) : ScramState := ⟨nonce, bytesOf "n=,r=" ++ nonce, none, false⟩

variable (st : ScramState)

def clientFirst : Bytes := bytesOf "n,," ++ st.clientFirstBare

def clientFinal (crypto : Crypto) (serverFirst password : Bytes) :
    Except Error (Bytes × ScramState) :=
  match attrs serverFirst with
  | ⟨some r, some s, some i⟩ =>
      if ¬ st.nonce <+: r then .error nonceMismatch
      else if maxIterations < i then .error (pastCap i)
      else
        match crypto.base64.decode s with
        | none => .error badScram
        | some salt =>
            let salted := hi crypto password salt i
            let auth := authMessage crypto st.clientFirstBare serverFirst r
            let proof := crypto.base64.encode (clientProof crypto salted auth)
            .ok (withoutProof crypto r ++ bytesOf ",p=" ++ proof,
              { st with serverSignature := some (crypto.hmac (serverKey crypto salted) auth) })
  | _ => .error badScram

def noSignature : Error :=
  .transfer ("walsender: SCRAM server-final carries no v= signature — the peer never proved it " ++
    "knows the password, as a fake server would not; refusing to treat the connection as " ++
    "authenticated.")

def mismatch : Error :=
  .transfer ("walsender: SCRAM server signature mismatch — the peer does NOT know this user's " ++
    "password. Either the connection is being intercepted (sslmode=require encrypts without " ++
    "verifying the certificate, so TLS alone rules nothing out) or it reached a server with a " ++
    "different password store.")

def unverified : Error :=
  .transfer ("walsender: the server completed SCRAM without ever sending its v= signature " ++
    "(AuthenticationSASLFinal) — it never proved it knows the password, as a fake server would " ++
    "not; refusing the connection.")

/-- Without the zeros and line feeds it ends in. -/
def trimEnd (t : Bytes) : Bytes := (t.reverse.dropWhile fun c => c = 0 || c = 10).reverse

/-- Zero when two texts are the same, whatever they differ in. -/
def differ (want got : Bytes) : UInt8 :=
  (want.zip got).foldl (fun diff ab => diff ||| (ab.1 ^^^ ab.2))
    (if want.length ≠ got.length then 1 else 0)

def verifyServer (crypto : Crypto) (serverFinal : Bytes) : Except Error ScramState :=
  if ¬ bytesOf "v=" <+: serverFinal then .error noSignature
  else
    match crypto.base64.decode (trimEnd (serverFinal.drop 2)) with
    | none => .error badScram
    | some got =>
        match st.serverSignature with
        | none => .error badScram
        | some want =>
            if differ want got ≠ 0 then .error mismatch else .ok { st with verified := true }

def requireVerified : Except Error Unit := if st.verified then .ok () else .error unverified

end ScramState

/-! ## Byte by byte -/

section Bytes

variable {u v : Bytes}

theorem xorBytes_self (len : u.length = v.length) : xorBytes (xorBytes u v) v = u := by
  induction u generalizing v with
  | nil => rfl
  | cons a u ih =>
      cases v with
      | nil => cases len
      | cons b v =>
          have rest := ih (Nat.succ.inj len)
          have first : a ^^^ b ^^^ b = a := by rw [UInt8.xor_assoc, UInt8.xor_self, UInt8.xor_zero]
          rw [xorBytes, xorBytes, List.zipWith_cons_cons, List.zipWith_cons_cons, first]
          exact congrArg (a :: ·) rest

theorem foldl_differ (diff : UInt8) :
    (u.zip v).foldl (fun diff ab => diff ||| (ab.1 ^^^ ab.2)) diff = 0 ↔
      diff = 0 ∧ ∀ ab ∈ u.zip v, ab.1 = ab.2 := by
  induction u generalizing v diff with
  | nil => simp
  | cons a u ih =>
      cases v with
      | nil => simp
      | cons b v =>
          rw [List.zip_cons_cons, List.foldl_cons, ih, UInt8.or_eq_zero_iff,
            UInt8.xor_eq_zero_iff, List.forall_mem_cons, and_assoc]

/-- The comparison tells texts apart. -/
theorem differ_eq_zero : ScramState.differ u v = 0 ↔ u = v := by
  rw [ScramState.differ, foldl_differ]
  constructor
  · rintro ⟨len, same⟩
    have lens : u.length = v.length := by
      by_contra apart
      rw [if_pos apart] at len
      cases len
    have equal : List.Forall₂ Eq u v :=
      List.forall₂_iff_zip.mpr ⟨lens, fun {a b} mem => same (a, b) mem⟩
    rwa [List.forall₂_eq_eq_eq] at equal
  · rintro rfl
    refine ⟨if_neg (not_not_intro rfl), ?_⟩
    intro ab mem
    rw [List.zip_eq_zipWith, List.zipWith_self] at mem
    obtain ⟨a, -, rfl⟩ := List.mem_map.mp mem
    rfl

end Bytes

/-- The client's proof gives its key to who knows the stored one. -/
theorem xorBytes_clientProof (crypto : Crypto) (salted auth : Bytes) :
    xorBytes (clientProof crypto salted auth) (crypto.hmac (storedKey crypto salted) auth) =
      clientKey crypto salted := by
  apply xorBytes_self
  rw [clientKey, crypto.length_hmac, crypto.length_hmac]

/-! ## What a step accepts -/

/-- A first message the client answers: the nonce is its own continued, and the count within
its cap. -/
structure Accepts (crypto : Crypto) (nonce serverFirst r salt : Bytes) (i : Nat) : Prop where
  attrs : ∃ s, attrs serverFirst = ⟨some r, some s, some i⟩ ∧
    crypto.base64.decode s = some salt
  fresh : nonce <+: r
  capped : i ≤ maxIterations

section Signed

variable (crypto : Crypto) (password clientFirstBare serverFirst r salt : Bytes) (i : Nat)

/-- The client's last message. -/
def finalMessage : Bytes :=
  withoutProof crypto r ++ bytesOf ",p=" ++
    crypto.base64.encode (clientProof crypto (hi crypto password salt i)
      (authMessage crypto clientFirstBare serverFirst r))

/-- The signature only a holder of the server's key has. -/
def signature : Bytes :=
  crypto.hmac (serverKey crypto (hi crypto password salt i))
    (authMessage crypto clientFirstBare serverFirst r)

end Signed

namespace ScramState

variable {st st' : ScramState} {crypto : Crypto} {password serverFirst serverFinal fin : Bytes}

theorem clientFinal_ok_iff : st.clientFinal crypto serverFirst password = .ok (fin, st') ↔
    ∃ r salt i, Accepts crypto st.nonce serverFirst r salt i ∧
      fin = finalMessage crypto password st.clientFirstBare serverFirst r salt i ∧
      st' = { st with
        serverSignature :=
          some (signature crypto password st.clientFirstBare serverFirst r salt i) } := by
  constructor
  · intro is
    rw [clientFinal] at is
    split at is
    · rename_i r s i found
      split_ifs at is with strange past
      split at is
      · cases is
      · rename_i salt decoded
        cases is
        exact ⟨r, salt, i, ⟨⟨s, found, decoded⟩, strange, Nat.le_of_not_lt past⟩,
          rfl, rfl⟩
    · cases is
  · rintro ⟨r, salt, i, ⟨⟨s, found, decoded⟩, fresh, capped⟩, rfl, rfl⟩
    rw [clientFinal, found]
    simp only [if_neg (not_not_intro fresh), if_neg (Nat.not_lt_of_le capped), decoded]
    rfl

/-- Nothing but zeros and line feeds. -/
def Trail (t : Bytes) : Prop := ∀ c ∈ t, c = 0 ∨ c = 10

theorem exists_trail (t : Bytes) : ∃ trail, t = trimEnd t ++ trail ∧ Trail trail := by
  refine ⟨(t.reverse.takeWhile fun c => c = 0 || c = 10).reverse, ?_, ?_⟩
  · rw [trimEnd, ← List.reverse_append, List.takeWhile_append_dropWhile, List.reverse_reverse]
  · intro c mem
    have ends := List.mem_takeWhile_imp (List.mem_reverse.mp mem)
    simpa using ends

theorem trimEnd_append {t trail : Bytes} (trails : Trail trail)
    (stops : ∀ c ∈ t, c ≠ 0 ∧ c ≠ 10) : trimEnd (t ++ trail) = t := by
  have cut : ∀ c ∈ trail.reverse, (decide (c = 0) || decide (c = 10)) = true := by
    intro c mem
    simpa using trails c (List.mem_reverse.mp mem)
  have kept : t.reverse.dropWhile (fun c => c = 0 || c = 10) = t.reverse := by
    apply List.dropWhile_eq_self_iff.mpr
    intro long wrong
    have := stops _ (List.mem_reverse.mp (List.getElem_mem long))
    simp_all
  rw [trimEnd, List.reverse_append, List.dropWhile_append_of_pos cut, kept, List.reverse_reverse]

theorem verifyServer_ok_iff : st.verifyServer crypto serverFinal = .ok st' ↔
    ∃ signed trail, st.serverSignature = some signed ∧
      serverFinal = bytesOf "v=" ++ crypto.base64.encode signed ++ trail ∧ Trail trail ∧
      st' = { st with verified := true } := by
  have two : (bytesOf "v=").length = 2 := rfl
  constructor
  · intro is
    rw [verifyServer] at is
    split_ifs at is with strange
    obtain ⟨rest, rfl⟩ := strange
    obtain ⟨trail, whole, trails⟩ := exists_trail rest
    rw [List.drop_left' two] at is
    split at is
    · cases is
    · rename_i got decoded
      split at is
      · cases is
      · rename_i want known
        split_ifs at is with apart
        cases is
        obtain rfl := differ_eq_zero.mp (not_not.mp apart)
        refine ⟨want, trail, known, ?_, trails, rfl⟩
        rw [crypto.base64.encode_of_decode _ _ decoded, List.append_assoc, ← whole]
  · rintro ⟨signed, trail, known, rfl, trails, rfl⟩
    have stops : ∀ c ∈ crypto.base64.encode signed, c ≠ 0 ∧ c ≠ 10 := by
      intro c mem
      obtain ⟨above, -, -⟩ := crypto.base64.encode_range _ c mem
      constructor
      · rintro rfl
        exact absurd above (by decide)
      · rintro rfl
        exact absurd above (by decide)
    have begins : bytesOf "v=" <+: bytesOf "v=" ++ crypto.base64.encode signed ++ trail :=
      ⟨crypto.base64.encode signed ++ trail, (List.append_assoc _ _ _).symm⟩
    rw [verifyServer, if_neg (not_not_intro begins), List.append_assoc, List.drop_left' two,
      trimEnd_append trails stops, crypto.base64.decode_encode]
    simp only [known, if_neg (not_not_intro (differ_eq_zero.mpr rfl))]

end ScramState

/-! ## A server's first message -/

theorem toNat_digit {n d : Nat} (mem : d ∈ Decimal.itoa n) :
    (UInt8.ofNat (48 + d)).toNat = 48 + d := by
  have lt := Decimal.itoa_lt n d mem
  exact UInt8.toNat_ofNat_of_lt (show 48 + d < 256 by omega)

theorem itoa_range {n : Nat} {c : UInt8} (mem : c ∈ Decimal.ascii (Decimal.itoa n)) :
    48 ≤ c ∧ c ≤ 57 := by
  obtain ⟨d, d_mem, rfl⟩ := List.mem_map.mp mem
  have lt := Decimal.itoa_lt n d d_mem
  rw [UInt8.le_iff_toNat_le, UInt8.le_iff_toNat_le, toNat_digit d_mem]
  exact ⟨Nat.le_add_right 48 d, show 48 + d ≤ 57 by omega⟩

theorem ascii_itoa_ne_nil (n : Nat) : Decimal.ascii (Decimal.itoa n) ≠ [] := by
  intro none_
  have nil : Decimal.itoa n = [] := List.map_eq_nil_iff.mp none_
  rw [Decimal.itoa] at nil
  split_ifs at nil with zero
  exact zero (Nat.digits_eq_nil_iff_eq_zero.mp (List.reverse_eq_nil_iff.mp nil))

theorem parseU32_itoa {n : Nat} (small : n < 2 ^ 32) :
    parseU32 (Decimal.ascii (Decimal.itoa n)) = some n := by
  have back : (Decimal.ascii (Decimal.itoa n)).map (fun c => c.toNat - 48) = Decimal.itoa n := by
    rw [Decimal.ascii, List.map_map]
    refine (List.map_congr_left fun d mem => ?_).trans (List.map_id _)
    rw [Function.comp_apply, toNat_digit mem, Nat.add_sub_cancel_left]
    rfl
  have digits : (Decimal.ascii (Decimal.itoa n)).all (fun c => 48 ≤ c && c ≤ 57) = true := by
    apply List.all_eq_true.mpr
    intro c mem
    simpa using itoa_range mem
  have unsigned : (Decimal.ascii (Decimal.itoa n)).head? ≠ some 43 := by
    intro plus
    exact absurd (itoa_range (List.mem_of_mem_head? plus)).1 (by decide)
  rw [parseU32, if_neg unsigned, if_pos ⟨ascii_itoa_ne_nil n, digits⟩, back, Decimal.value_itoa,
    if_pos small]

theorem splitOnce_key {k : UInt8} {v : Bytes} (key : k ≠ 61) :
    splitOnce 61 (k :: 61 :: v) = some ([k], v) := by
  have mem : 61 ∈ k :: 61 :: v := by simp
  rw [splitOnce, if_pos mem]
  simp [key]

theorem attrs_first {r s : Bytes} {i : Nat} (r_plain : 44 ∉ r) (s_plain : 44 ∉ s)
    (small : i < 2 ^ 32) :
    attrs (bytesOf "r=" ++ r ++ bytesOf ",s=" ++ s ++ bytesOf ",i=" ++
      Decimal.ascii (Decimal.itoa i)) = ⟨some r, some s, some i⟩ := by
  have i_plain : 44 ∉ Decimal.ascii (Decimal.itoa i) := by
    intro mem
    exact absurd (itoa_range mem).1 (by decide)
  have parts : bytesOf "r=" ++ r ++ bytesOf ",s=" ++ s ++ bytesOf ",i=" ++
      Decimal.ascii (Decimal.itoa i) = (114 :: 61 :: r) ++ 44 :: ((115 :: 61 :: s) ++
        44 :: (105 :: 61 :: Decimal.ascii (Decimal.itoa i))) := by
    simp [bytesOf]
  rw [attrs, parts, List.splitOn_append_cons_self_of_not_mem,
    List.splitOn_append_cons_self_of_not_mem, List.splitOn_eq_singleton]
  · simp [Attrs.read, splitOnce_key, parseU32_itoa small]
  all_goals simp [r_plain, s_plain, i_plain]

end Apitap.Scram
