import Mathlib.Tactic.SplitIfs

/-!
# Base64

Three bytes as four symbols of an alphabet of 64, the last bytes padded. Reading accepts the
padded text of some bytes and no other: every text that reads is the text of what it reads to.
-/

namespace Apitap.Foundation

namespace Base64

/-- The symbol of six bits. -/
def symbol (n : Nat) : UInt8 :=
  if n < 26 then UInt8.ofNat (65 + n)
  else if n < 52 then UInt8.ofNat (71 + n)
  else if n < 62 then UInt8.ofNat (n - 4)
  else if n = 62 then 43
  else 47

def pad : UInt8 := 61

/-- The six bits of a symbol. -/
def bits (c : UInt8) : Option Nat :=
  if 65 ≤ c.toNat ∧ c.toNat ≤ 90 then some (c.toNat - 65)
  else if 97 ≤ c.toNat ∧ c.toNat ≤ 122 then some (c.toNat - 71)
  else if 48 ≤ c.toNat ∧ c.toNat ≤ 57 then some (c.toNat + 4)
  else if c.toNat = 43 then some 62
  else if c.toNat = 47 then some 63
  else none

def encode : List UInt8 → List UInt8
  | [] => []
  | [a] => [symbol (a.toNat / 4), symbol (a.toNat % 4 * 16), pad, pad]
  | [a, b] =>
      [symbol (a.toNat / 4), symbol (a.toNat % 4 * 16 + b.toNat / 16),
        symbol (b.toNat % 16 * 4), pad]
  | a :: b :: c :: rest =>
      symbol (a.toNat / 4) :: symbol (a.toNat % 4 * 16 + b.toNat / 16) ::
        symbol (b.toNat % 16 * 4 + c.toNat / 64) :: symbol (c.toNat % 64) :: encode rest

/-- The byte of its first bits and its last ones. -/
def byte (high low : Nat) : UInt8 := UInt8.ofNat (high + low)

/-- One byte, when the bits behind it are zero. -/
def one (p q : UInt8) : Option (List UInt8) := do
  let p ← bits p
  let q ← bits q
  if q % 16 = 0 then some [byte (p * 4) (q / 16)] else none

/-- Two bytes, when the bits behind them are zero. -/
def two (p q r : UInt8) : Option (List UInt8) := do
  let p ← bits p
  let q ← bits q
  let r ← bits r
  if r % 4 = 0 then some [byte (p * 4) (q / 16), byte (q % 16 * 16) (r / 4)] else none

def three (p q r s : UInt8) : Option (List UInt8) := do
  let p ← bits p
  let q ← bits q
  let r ← bits r
  let s ← bits s
  some [byte (p * 4) (q / 16), byte (q % 16 * 16) (r / 4), byte (r % 4 * 64) s]

/-- Reading with canonical padding. -/
def decode : List UInt8 → Option (List UInt8)
  | [] => some []
  | p :: q :: r :: s :: rest =>
      if rest = [] ∧ s = pad then
        if r = pad then one p q else two p q r
      else do
        let front ← three p q r s
        let back ← decode rest
        some (front ++ back)
  | _ => none

variable {c : UInt8} {n : Nat}

/-! ## Symbols -/

theorem bits_symbol (lt : n < 64) : bits (symbol n) = some n := by
  revert n
  decide

theorem symbol_bits (is : bits c = some n) : n < 64 ∧ symbol n = c := by
  have lt : c.toNat < 256 := c.toNat_lt
  have back : UInt8.ofNat c.toNat = c := UInt8.ofNat_toNat
  rw [bits] at is
  split_ifs at is with upper lower digit plus slash
  · cases is
    refine ⟨by omega, ?_⟩
    rw [symbol, if_pos (by omega), ← back]
    congr 1
    rw [back]
    omega
  · cases is
    refine ⟨by omega, ?_⟩
    rw [symbol, if_neg (by omega), if_pos (by omega), ← back]
    congr 1
    rw [back]
    omega
  · cases is
    refine ⟨by omega, ?_⟩
    rw [symbol, if_neg (by omega), if_neg (by omega), if_pos (by omega), ← back]
    congr 1
    rw [back]
    omega
  · cases is
    refine ⟨by omega, ?_⟩
    rw [← back, plus]
    rfl
  · cases is
    refine ⟨by omega, ?_⟩
    rw [← back, slash]
    rfl

theorem symbol_ne_pad (lt : n < 64) : symbol n ≠ pad := by
  revert n
  decide

/-- A symbol is a letter, a digit, a plus or a slash. -/
theorem symbol_range (lt : n < 64) : 43 ≤ symbol n ∧ symbol n ≤ 122 ∧ symbol n ≠ 44 := by
  revert n
  decide

/-- Every byte of a text stands in the range of its symbols. -/
theorem encode_range {bs : List UInt8} (mem : c ∈ encode bs) : 43 ≤ c ∧ c ≤ 122 ∧ c ≠ 44 := by
  have padded : (43 : UInt8) ≤ pad ∧ pad ≤ 122 ∧ pad ≠ 44 := by decide
  induction bs using encode.induct with
  | case1 => cases mem
  | case2 a =>
      have lt := a.toNat_lt
      rw [encode] at mem
      simp only [List.mem_cons, List.not_mem_nil, or_false] at mem
      obtain rfl | rfl | rfl | rfl := mem
      · exact symbol_range (by omega)
      · exact symbol_range (by omega)
      · exact padded
      · exact padded
  | case3 a b =>
      have a_lt := a.toNat_lt
      have b_lt := b.toNat_lt
      rw [encode] at mem
      simp only [List.mem_cons, List.not_mem_nil, or_false] at mem
      obtain rfl | rfl | rfl | rfl := mem
      · exact symbol_range (by omega)
      · exact symbol_range (by omega)
      · exact symbol_range (by omega)
      · exact padded
  | case4 a b d rest ih =>
      have a_lt := a.toNat_lt
      have b_lt := b.toNat_lt
      have d_lt := d.toNat_lt
      rw [encode] at mem
      simp only [List.mem_cons] at mem
      obtain rfl | rfl | rfl | rfl | later := mem
      · exact symbol_range (by omega)
      · exact symbol_range (by omega)
      · exact symbol_range (by omega)
      · exact symbol_range (by omega)
      · exact ih later

/-! ## Round trips -/

theorem byte_eq {high low : Nat} {a : UInt8} (is : high + low = a.toNat) : byte high low = a := by
  rw [byte, is]
  exact UInt8.ofNat_toNat

theorem decode_encode (bs : List UInt8) : decode (encode bs) = some bs := by
  induction bs using encode.induct with
  | case1 => rfl
  | case2 a =>
      have lt := a.toNat_lt
      have whole : byte (a.toNat / 4 * 4) (a.toNat % 4 * 16 / 16) = a := byte_eq (by omega)
      have spare : a.toNat % 4 * 16 % 16 = 0 := by omega
      simp only [encode, decode, one, bits_symbol (show a.toNat / 4 < 64 by omega),
        bits_symbol (show a.toNat % 4 * 16 < 64 by omega), Option.bind_eq_bind, Option.bind_some,
        and_self, if_true, spare, whole]
  | case3 a b =>
      have a_lt := a.toNat_lt
      have b_lt := b.toNat_lt
      have first : byte (a.toNat / 4 * 4) ((a.toNat % 4 * 16 + b.toNat / 16) / 16) = a :=
        byte_eq (by omega)
      have second : byte ((a.toNat % 4 * 16 + b.toNat / 16) % 16 * 16) (b.toNat % 16 * 4 / 4) = b :=
        byte_eq (by omega)
      have full := symbol_ne_pad (show b.toNat % 16 * 4 < 64 by omega)
      simp only [encode, decode, two, bits_symbol (show a.toNat / 4 < 64 by omega),
        bits_symbol (show a.toNat % 4 * 16 + b.toNat / 16 < 64 by omega),
        bits_symbol (show b.toNat % 16 * 4 < 64 by omega), Option.bind_eq_bind, Option.bind_some,
        if_neg full, and_self, if_true, first, second, Nat.mul_mod_left]
  | case4 a b d rest ih =>
      have a_lt := a.toNat_lt
      have b_lt := b.toNat_lt
      have d_lt := d.toNat_lt
      have first : byte (a.toNat / 4 * 4) ((a.toNat % 4 * 16 + b.toNat / 16) / 16) = a :=
        byte_eq (by omega)
      have second : byte ((a.toNat % 4 * 16 + b.toNat / 16) % 16 * 16)
          ((b.toNat % 16 * 4 + d.toNat / 64) / 4) = b := byte_eq (by omega)
      have third : byte ((b.toNat % 16 * 4 + d.toNat / 64) % 4 * 64) (d.toNat % 64) = d :=
        byte_eq (by omega)
      have full := symbol_ne_pad (show d.toNat % 64 < 64 by omega)
      simp only [encode, decode, three, bits_symbol (show a.toNat / 4 < 64 by omega),
        bits_symbol (show a.toNat % 4 * 16 + b.toNat / 16 < 64 by omega),
        bits_symbol (show b.toNat % 16 * 4 + d.toNat / 64 < 64 by omega),
        bits_symbol (show d.toNat % 64 < 64 by omega), Option.bind_eq_bind, Option.bind_some,
        full, and_false, if_false, first, second, third, ih, List.cons_append, List.nil_append]

theorem toNat_byte {high low : Nat} (lt : high + low < 256) : (byte high low).toNat = high + low :=
  UInt8.toNat_ofNat_of_lt lt

theorem encode_of_one {p q : UInt8} {bs : List UInt8} (is : one p q = some bs) :
    encode bs = [p, q, pad, pad] := by
  simp only [one, Option.bind_eq_bind, Option.bind_eq_some_iff] at is
  obtain ⟨u, p_is, v, q_is, is⟩ := is
  obtain ⟨u_lt, rfl⟩ := symbol_bits p_is
  obtain ⟨v_lt, rfl⟩ := symbol_bits q_is
  split_ifs at is with spare
  cases is
  have first := toNat_byte (show u * 4 + v / 16 < 256 by omega)
  have front : (u * 4 + v / 16) / 4 = u := by omega
  have back : (u * 4 + v / 16) % 4 * 16 = v := by omega
  rw [encode, first, front, back]

theorem encode_of_two {p q r : UInt8} {bs : List UInt8} (is : two p q r = some bs) :
    encode bs = [p, q, r, pad] := by
  simp only [two, Option.bind_eq_bind, Option.bind_eq_some_iff] at is
  obtain ⟨u, p_is, v, q_is, w, r_is, is⟩ := is
  obtain ⟨u_lt, rfl⟩ := symbol_bits p_is
  obtain ⟨v_lt, rfl⟩ := symbol_bits q_is
  obtain ⟨w_lt, rfl⟩ := symbol_bits r_is
  split_ifs at is with spare
  cases is
  have first := toNat_byte (show u * 4 + v / 16 < 256 by omega)
  have second := toNat_byte (show v % 16 * 16 + w / 4 < 256 by omega)
  have front : (u * 4 + v / 16) / 4 = u := by omega
  have middle : (u * 4 + v / 16) % 4 * 16 + (v % 16 * 16 + w / 4) / 16 = v := by omega
  have back : (v % 16 * 16 + w / 4) % 16 * 4 = w := by omega
  rw [encode, first, second, front, middle, back]

theorem encode_of_three {p q r s : UInt8} {front back : List UInt8}
    (is : three p q r s = some front) :
    encode (front ++ back) = p :: q :: r :: s :: encode back := by
  simp only [three, Option.bind_eq_bind, Option.bind_eq_some_iff] at is
  obtain ⟨u, p_is, v, q_is, w, r_is, x, s_is, is⟩ := is
  obtain ⟨u_lt, rfl⟩ := symbol_bits p_is
  obtain ⟨v_lt, rfl⟩ := symbol_bits q_is
  obtain ⟨w_lt, rfl⟩ := symbol_bits r_is
  obtain ⟨x_lt, rfl⟩ := symbol_bits s_is
  cases is
  have first := toNat_byte (show u * 4 + v / 16 < 256 by omega)
  have second := toNat_byte (show v % 16 * 16 + w / 4 < 256 by omega)
  have third := toNat_byte (show w % 4 * 64 + x < 256 by omega)
  have at_p : (u * 4 + v / 16) / 4 = u := by omega
  have at_q : (u * 4 + v / 16) % 4 * 16 + (v % 16 * 16 + w / 4) / 16 = v := by omega
  have at_r : (v % 16 * 16 + w / 4) % 16 * 4 + (w % 4 * 64 + x) / 64 = w := by omega
  have at_s : (w % 4 * 64 + x) % 64 = x := by omega
  rw [List.cons_append, List.cons_append, List.cons_append, List.nil_append, encode, first, second,
    third, at_p, at_q, at_r, at_s]

/-- A text that reads is the text of what it reads to. -/
theorem encode_of_decode {t bs : List UInt8} (is : decode t = some bs) : encode bs = t := by
  induction t using decode.induct generalizing bs with
  | case1 =>
      cases is
      rfl
  | case2 p q s rest last =>
      obtain ⟨rfl, rfl⟩ := last
      rw [decode, if_pos ⟨rfl, rfl⟩, if_pos rfl] at is
      exact encode_of_one is
  | case3 p q r s rest last full =>
      obtain ⟨rfl, rfl⟩ := last
      rw [decode, if_pos ⟨rfl, rfl⟩, if_neg full] at is
      exact encode_of_two is
  | case4 p q r s rest full ih =>
      rw [decode, if_neg full] at is
      simp only [Option.bind_eq_bind, Option.bind_eq_some_iff, Option.some.injEq] at is
      obtain ⟨front, front_is, back, back_is, rfl⟩ := is
      rw [encode_of_three front_is, ih back_is]
  | case5 t none_ quads =>
      rw [decode] at is
      · cases is
      · exact none_
      · exact quads

/-- A codec of such texts: what it writes it reads again, it reads no other text, and it writes
no comma and no control character. -/
structure Codec where
  encode : List UInt8 → List UInt8
  decode : List UInt8 → Option (List UInt8)
  decode_encode : ∀ bs, decode (encode bs) = some bs
  encode_of_decode : ∀ t bs, decode t = some bs → encode bs = t
  encode_range : ∀ bs, ∀ c ∈ encode bs, 43 ≤ c ∧ c ≤ 122 ∧ c ≠ 44

def standard : Codec where
  encode := encode
  decode := decode
  decode_encode := decode_encode
  encode_of_decode _ _ := encode_of_decode
  encode_range _ _ := encode_range

end Base64

end Apitap.Foundation
