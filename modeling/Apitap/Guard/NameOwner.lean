import Apitap.Guard.NameText

/-!
# A name belongs to one table

A token is sixteen characters with no other `_` in them than its first, and no kind's suffix
ends another's. So a minted name is taken apart in one way, and what is left is whether two
tables have one head: where one is called what the other one is cut to, and nowhere else, as
long as no two tables have one digest.
-/

namespace Apitap.Naming

open Guard (Artifact LandKind)
open Foundation

section

variable {D : Digest} {bare other t u v : Text} {artifact kind : Artifact} {limit : Nat}
  {token : Text} {run : RunId}

/-! ## Texts and their bytes -/

@[simp] theorem size_nil : size [] = 0 := rfl

@[simp] theorem size_cons {c : Char} : size (c :: t) = c.utf8Size + size t := rfl

@[simp] theorem size_append : size (t ++ u) = size t + size u := by
  rw [size, List.map_append, List.sum_append]
  rfl

theorem utf8Size_ascii {c : Char} (small : c.toNat < 128) : c.utf8Size = 1 := by
  have low : c.val ≤ 0x7f := by
    rw [UInt32.le_iff_toNat_le]
    exact Nat.le_of_lt_succ small
  rw [Char.utf8Size]
  exact if_pos low

theorem size_ascii (ascii : ∀ c ∈ t, c.toNat < 128) : size t = t.length := by
  induction t with
  | nil => rfl
  | cons c t ih =>
      have rest := ih fun d d_mem => ascii d (List.mem_cons_of_mem _ d_mem)
      rw [size_cons, utf8Size_ascii (ascii c List.mem_cons_self), rest, List.length_cons,
        Nat.add_comm]

theorem size_eq_zero (none : size t = 0) : t = [] := by
  cases t with
  | nil => rfl
  | cons c t =>
      have some_byte := Char.utf8Size_pos c
      rw [size_cons] at none
      omega

/-- Fronts of one text are told apart by their bytes. -/
theorem eq_of_front (first : u <+: t) (second : v <+: t) (same : size u = size v) : u = v := by
  obtain ⟨w, rfl⟩ | ⟨w, rfl⟩ := List.prefix_or_prefix_of_prefix first second
  · rw [size_append] at same
    rw [size_eq_zero (t := w) (by omega), List.append_nil]
  · rw [size_append] at same
    rw [size_eq_zero (t := w) (by omega), List.append_nil]

theorem size_cut {room : Nat} (head : Text) (small : size head ≤ room) (t : Text) :
    size (cut room head t) ≤ room := by
  induction t generalizing head with
  | nil => exact small
  | cons c t ih =>
      rw [cut]
      split
      · exact small
      · apply ih
        rw [size_append, size_cons, size_nil]
        omega

theorem fromByte_size : fromByte (size t) (t ++ u) = some u := by
  induction t with
  | nil =>
      rw [size_nil, List.nil_append]
      cases u <;> rfl
  | cons c t ih =>
      have some_byte := Char.utf8Size_pos c
      obtain ⟨n, is⟩ : ∃ n, size (c :: t) = n + 1 := ⟨size (c :: t) - 1, by
        rw [size_cons]
        omega⟩
      have more : c.utf8Size ≤ n + 1 := by
        rw [← is, size_cons]
        omega
      have rest : n + 1 - c.utf8Size = size t := by
        rw [← is, size_cons]
        omega
      rw [is, List.cons_append, fromByte, if_pos more, rest, ih]

/-! ## Suffixes and tokens -/

theorem suffix_ascii : ∀ c ∈ suffix artifact, c.toNat < 128 := by
  have all : ((suffix artifact).all fun c => c.toNat < 128) = true := by
    cases artifact <;> rfl
  intro c mem
  exact of_decide_eq_true (List.all_eq_true.mp all c mem)

/-- No kind's suffix ends another's. -/
theorem suffix_alone (ends : suffix artifact <:+ suffix kind) : artifact = kind := by
  revert ends
  cases artifact <;> cases kind <;> decide

theorem kind_of_suffix (first : suffix artifact <:+ t) (second : suffix kind <:+ t) :
    artifact = kind := by
  cases List.suffix_or_suffix_of_suffix first second with
  | inl ends => exact suffix_alone ends
  | inr ends => exact (suffix_alone ends).symm

theorem suffix_length : (suffix artifact).length ≤ 16 := by
  cases artifact <;> decide

theorem digit36_char : ∀ d < 36, toDigit36 (digit36 d) = some d ∧ (digit36 d).toNat < 128 ∧
    digit36 d ≠ '_' ∧ digit36 d ≠ '+' := by
  decide

theorem base36_char {n width : Nat} {c : Char} (mem : c ∈ base36 n width) :
    c.toNat < 128 ∧ c ≠ '_' ∧ c ≠ '+' := by
  obtain ⟨d, d_mem, rfl⟩ := List.mem_map.mp mem
  have small := Radix.digits_lt (by decide) d d_mem
  exact (digit36_char d small).2

@[simp] theorem length_base36 {n width : Nat} : (base36 n width).length = width := by
  rw [base36, List.length_map, Radix.length_digits]

theorem mapM_base36 {ds : List Nat} (small : ∀ d ∈ ds, d < 36) :
    (ds.map digit36).mapM toDigit36 = some ds := by
  induction ds with
  | nil => rfl
  | cons d ds ih =>
      rw [List.map_cons, List.mapM_cons, (digit36_char d (small d List.mem_cons_self)).1,
        ih fun e e_mem => small e (List.mem_cons_of_mem _ e_mem)]
      rfl

theorem parseU64_base36 {n : Nat} : parseU64 (base36 n 7) = some (n % 36 ^ 7) := by
  have no_plus : (base36 n 7).head? ≠ some '+' := by
    intro plus
    exact (base36_char (List.mem_of_head? plus)).2.2 rfl
  have some_digit : base36 n 7 ≠ [] := by
    intro none
    have long := congrArg List.length none
    rw [length_base36] at long
    cases long
  have read : (base36 n 7).mapM toDigit36 = some (Radix.digits 36 7 n) :=
    mapM_base36 (Radix.digits_lt (by decide))
  have small : n % 36 ^ 7 < 2 ^ 64 := (Nat.mod_lt n (by decide)).trans (by decide)
  rw [parseU64, if_neg no_plus]
  simp only [if_neg some_digit, read, Option.bind_some, Radix.value_digits, if_pos small]

/-- A token that some run mints. -/
def Minted (token : Text) : Prop := ∃ kind secs src nonce,
  token = RunId.mintToken kind secs src nonce

/-- What a token says of its run. -/
def peerOf (token : Text) : Option PeerRun := do
  let started ← parseU64 ((token.drop 1).take 7)
  let kind ← token[8]?.bind fromLetter
  some ⟨started, kind, (token.drop 9).take 3, token⟩

theorem peerOf_mint {kind : LandKind} {secs src nonce : Nat} :
    peerOf (RunId.mintToken kind secs src nonce) =
      some ⟨secs % 36 ^ 7, kind, base36 src 3, RunId.mintToken kind secs src nonce⟩ := by
  have seven : (base36 secs 7).length = 7 := length_base36
  have three : (base36 src 3).length = 3 := length_base36
  have started : ((RunId.mintToken kind secs src nonce).drop 1).take 7 = base36 secs 7 := by
    rw [RunId.mintToken, List.drop_succ_cons, List.drop_zero, List.take_left' seven]
  have kindly : (RunId.mintToken kind secs src nonce)[8]?.bind fromLetter = some kind := by
    rw [RunId.mintToken, List.getElem?_cons_succ, List.getElem?_append_right seven.le, seven]
    cases kind <;> rfl
  have source : ((RunId.mintToken kind secs src nonce).drop 9).take 3 = base36 src 3 := by
    rw [RunId.mintToken, List.drop_succ_cons, List.drop_append, List.drop_eq_nil_of_le (by omega),
      seven, List.nil_append, List.drop_succ_cons, List.drop_zero, List.take_left' three]
  rw [peerOf, started, kindly, source, parseU64_base36]
  rfl

theorem Minted.ascii (minted : Minted token) : ∀ c ∈ token, c.toNat < 128 := by
  obtain ⟨kind, secs, src, nonce, rfl⟩ := minted
  intro c mem
  rw [RunId.mintToken, List.mem_cons, List.mem_append, List.mem_cons, List.mem_append] at mem
  obtain rfl | mem | rfl | mem | mem := mem
  · decide
  · exact (base36_char mem).1
  · cases kind <;> decide
  · exact (base36_char mem).1
  · exact (base36_char mem).1

theorem Minted.length (minted : Minted token) : token.length = 16 := by
  obtain ⟨kind, secs, src, nonce, rfl⟩ := minted
  rw [RunId.mintToken, List.length_cons, List.length_append, List.length_cons, List.length_append,
    length_base36, length_base36, length_base36]

theorem Minted.size (minted : Minted token) : size token = runTokenLen :=
  (size_ascii minted.ascii).trans minted.length

theorem Minted.head (minted : Minted token) : token.head? = some '_' := by
  obtain ⟨kind, secs, src, nonce, rfl⟩ := minted
  rfl

/-- A token has no `_` but its first character. -/
theorem Minted.tail (minted : Minted token) : '_' ∉ token.tail := by
  obtain ⟨kind, secs, src, nonce, rfl⟩ := minted
  intro mem
  rw [RunId.mintToken, List.tail_cons, List.mem_append, List.mem_cons, List.mem_append] at mem
  obtain mem | mem | mem | mem := mem
  · exact (base36_char mem).2.1 rfl
  · cases kind <;> cases mem
  · exact (base36_char mem).2.1 rfl
  · exact (base36_char mem).2.1 rfl

/-- A token is read back off the name that carries it. -/
theorem parsePeer_minted (minted : Minted token) :
    parsePeer (t ++ token ++ suffix artifact) artifact = peerOf token := by
  have stripped : stripSuffix (t ++ token ++ suffix artifact) (suffix artifact) =
      some (t ++ token) := by
    have ends : (suffix artifact).isSuffixOf (t ++ token ++ suffix artifact) = true :=
      List.isSuffixOf_iff_suffix.mpr (List.suffix_append _ _)
    rw [stripSuffix, if_pos ends, List.length_append, Nat.add_sub_cancel, List.take_left]
  have long : size (t ++ token) = size t + runTokenLen := by
    rw [size_append, minted.size]
  have ascii : (token.all fun c => decide (c.toNat < 128)) = true :=
    List.all_eq_true.mpr fun c mem => decide_eq_true (minted.ascii c mem)
  have enough : ¬ size t + runTokenLen < runTokenLen := by omega
  rw [parsePeer, stripped]
  simp only [Option.bind_eq_bind, Option.bind_some, long, if_neg enough, Nat.add_sub_cancel,
    fromByte_size, ascii, not_true_eq_false, if_false, minted.head, ne_eq]
  rfl

/-! ## What a table's names start with -/

/-- What stands before the token in a table's names. -/
def stem (D : Digest) (bare : Text) (artifact : Artifact) (limit : Nat) : Text :=
  (artifactMatch D bare artifact limit).1

theorem artifactMatch_eq :
    artifactMatch D bare artifact limit = (stem D bare artifact limit, suffix artifact) := by
  rw [stem, artifactMatch]
  dsimp only
  split <;> rfl

theorem artifactIdentTok_eq : artifactIdentTok D bare artifact limit token =
    stem D bare artifact limit ++ token ++ suffix artifact := by
  rw [artifactIdentTok, artifactMatch_eq]

/-- The bytes a table's name may have behind which the token and the suffix fit. -/
def room (artifact : Artifact) (limit : Nat) : Nat := limit - (size (suffix artifact) + runTokenLen)

theorem stem_short (fits : size bare ≤ room artifact limit) :
    stem D bare artifact limit = bare := by
  rw [stem, artifactMatch]
  exact congrArg Prod.fst (if_pos fits)

theorem stem_long (exceeds : room artifact limit < size bare) : stem D bare artifact limit =
    cut (room artifact limit - (hashLen + 1)) [] bare ++
      '_' :: (D.hex (bare ++ suffix artifact)).take hashLen := by
  rw [stem, artifactMatch]
  exact congrArg Prod.fst (if_neg (Nat.not_le.mpr exceeds))

theorem length_digest : ((D.hex t).take hashLen).length = 8 := by
  rw [List.length_take, D.length]
  rfl

theorem size_digest : size ((D.hex t).take hashLen) = 8 := by
  rw [size_ascii fun c mem => D.ascii t c (List.mem_of_mem_take mem), length_digest]

theorem size_suffix : size (suffix artifact) = (suffix artifact).length := size_ascii suffix_ascii

section

/-- Two tables' digests differ where the tables do. -/
def Apart (D : Digest) (artifact : Artifact) (t u : Text) : Prop :=
  t ++ suffix artifact ≠ u ++ suffix artifact →
    (D.hex (t ++ suffix artifact)).take hashLen ≠ (D.hex (u ++ suffix artifact)).take hashLen

instance : Decidable (Apart D artifact t u) := inferInstanceAs (Decidable (_ → _))

variable (limited : 63 ≤ limit)

include limited

theorem room_large : 31 ≤ room artifact limit := by
  have short : (suffix artifact).length ≤ 16 := suffix_length
  rw [room, size_suffix, runTokenLen]
  omega

theorem size_stem : size (stem D bare artifact limit) ≤ room artifact limit := by
  by_cases fits : size bare ≤ room artifact limit
  · rw [stem_short fits]
    exact fits
  · have large : 31 ≤ room artifact limit := room_large limited
    have front : size (cut (room artifact limit - (hashLen + 1)) [] bare) ≤
        room artifact limit - (hashLen + 1) := size_cut [] (Nat.zero_le _) bare
    have mark : Char.utf8Size '_' = 1 := by decide
    rw [stem_long (Nat.lt_of_not_le fits), size_append, size_cons, mark, size_digest]
    rw [hashLen] at front ⊢
    omega

theorem stem_stem : stem D (stem D bare artifact limit) artifact limit =
    stem D bare artifact limit := stem_short (size_stem limited)

/-- Two tables have one head only where one is called what the other is cut to. -/
theorem stem_eq_iff (apart : Apart D artifact bare other) :
    stem D bare artifact limit = stem D other artifact limit ↔
      bare = other ∨ other = stem D bare artifact limit ∨ bare = stem D other artifact limit := by
  constructor
  · intro same
    by_cases fits : size bare ≤ room artifact limit
    · exact .inr (.inr ((stem_short fits).symm.trans same))
    · by_cases fits' : size other ≤ room artifact limit
      · exact .inr (.inl ((stem_short fits').symm.trans same.symm))
      · rw [stem_long (Nat.lt_of_not_le fits), stem_long (Nat.lt_of_not_le fits')] at same
        have ends := (List.append_inj' same (by
          rw [List.length_cons, List.length_cons, length_digest, length_digest])).2
        by_contra differ
        apply apart
        · intro one
          exact differ (.inl (List.append_cancel_right one))
        · exact (List.cons.inj ends).2
  · rintro (rfl | called | called)
    · rfl
    · rw [called, stem_stem limited]
    · rw [called, stem_stem limited]

/-! ## What a minted name is classified as -/

theorem size_name (minted : Minted token) :
    size (stem D bare artifact limit ++ token ++ suffix artifact) ≤ limit := by
  have front : size (stem D bare artifact limit) ≤ room artifact limit := size_stem limited
  have large : 31 ≤ room artifact limit := room_large limited
  rw [size_append, size_append, minted.size]
  rw [room] at front large
  omega

/-- The name without a token is another table's, where that one is called like a head and a
token. -/
theorem name_eq_ident_iff (minted : Minted token) :
    stem D bare artifact limit ++ token ++ suffix artifact = artifactIdent D other artifact limit ↔
      other = stem D bare artifact limit ++ token := by
  constructor
  · intro same
    rw [artifactIdent] at same
    split at same
    · exact (List.append_cancel_right same).symm
    · have cutting := List.append_cancel_right same
      have halves : token = token.take 7 ++ token.drop 7 := (List.take_append_drop 7 token).symm
      have nine : (token.drop 7).length = 9 := by
        rw [List.length_drop, minted.length]
      rw [halves, ← List.append_assoc] at cutting
      have ends := (List.append_inj' cutting (by
        rw [nine, List.length_cons, length_digest])).2
      have mark : '_' ∈ token.drop 7 := by
        rw [ends]
        exact List.mem_cons_self
      have tail : token.drop 7 = token.tail.drop 6 := by
        rw [List.drop_tail]
      rw [tail] at mark
      exact absurd (List.mem_of_mem_drop mark) minted.tail
  · rintro rfl
    have fits : size (stem D bare artifact limit ++ token ++ suffix artifact) ≤ limit :=
      size_name limited minted
    rw [size_append] at fits
    rw [artifactIdent, if_pos fits]

/-- What a run's own table and kind take a token for. -/
def seen (run : RunId) (token : Text) : Found :=
  match peerOf token with
  | none => .foreign
  | some peer =>
      if run.isSelf peer.token then .mine
      else if run.isParent peer.token then .parent
      else .live peer

theorem classify_name (minted : Minted token) :
    classify D (stem D bare artifact limit ++ token ++ suffix artifact) other artifact limit run =
      if other = stem D bare artifact limit ++ token then .legacy
      else if stem D other artifact limit = stem D bare artifact limit then seen run token
      else .foreign := by
  rw [classify, artifactMatch_eq]
  dsimp only
  by_cases old : other = stem D bare artifact limit ++ token
  · rw [if_pos old, if_pos ((name_eq_ident_iff limited minted).mpr old)]
  · rw [if_neg old, if_neg fun same => old ((name_eq_ident_iff limited minted).mp same)]
    by_cases same : stem D other artifact limit = stem D bare artifact limit
    · have fits : ¬ (size (stem D bare artifact limit ++ token ++ suffix artifact) ≠
          size (stem D other artifact limit) + runTokenLen + size (suffix artifact) ∨
          ¬ (stem D other artifact limit).isPrefixOf
            (stem D bare artifact limit ++ token ++ suffix artifact) ∨
          ¬ (suffix artifact).isSuffixOf
            (stem D bare artifact limit ++ token ++ suffix artifact)) := by
        have starts : (stem D bare artifact limit).isPrefixOf
            (stem D bare artifact limit ++ token ++ suffix artifact) = true := by
          rw [List.append_assoc]
          exact List.isPrefixOf_iff_prefix.mpr (List.prefix_append _ _)
        have ends : (suffix artifact).isSuffixOf
            (stem D bare artifact limit ++ token ++ suffix artifact) = true :=
          List.isSuffixOf_iff_suffix.mpr (List.suffix_append _ _)
        rw [same, size_append, size_append, minted.size, starts, ends]
        simp
      rw [if_neg fits, if_pos same, parsePeer_minted minted]
      rfl
    · have misses : size (stem D bare artifact limit ++ token ++ suffix artifact) ≠
          size (stem D other artifact limit) + runTokenLen + size (suffix artifact) ∨
          ¬ (stem D other artifact limit).isPrefixOf
            (stem D bare artifact limit ++ token ++ suffix artifact) ∨
          ¬ (suffix artifact).isSuffixOf
            (stem D bare artifact limit ++ token ++ suffix artifact) := by
        by_contra fits
        obtain ⟨long, starts, -⟩ : _ ∧ _ ∧ _ := by simpa [not_or] using fits
        rw [minted.size] at long
        have front : stem D bare artifact limit <+:
            stem D bare artifact limit ++ (token ++ suffix artifact) := List.prefix_append _ _
        exact same (eq_of_front starts front (by omega))
      rw [if_pos misses, if_neg same]

omit limited in
/-- Of another kind no minted name is. -/
theorem classify_other_kind (different : kind ≠ artifact) :
    classify D (stem D bare artifact limit ++ token ++ suffix artifact) other kind limit run =
      .foreign := by
  have ends : ¬ suffix kind <:+ stem D bare artifact limit ++ token ++ suffix artifact :=
    fun ends => different (kind_of_suffix ends (List.suffix_append _ _))
  have misses : stem D bare artifact limit ++ token ++ suffix artifact ≠
      artifactIdent D other kind limit := by
    intro same
    apply ends
    rw [same, artifactIdent]
    split <;> exact List.suffix_append _ _
  rw [classify, artifactMatch_eq]
  dsimp only
  rw [if_neg misses, if_pos (.inr (.inr fun is => ends (List.isSuffixOf_iff_suffix.mp is)))]

/-! ## One owner for a name -/

/-- The text of a token. -/
def tokenText (token : Guard.Token) : Text :=
  RunId.mintToken token.kind token.started token.source token.nonce

omit limited in
theorem minted_text (token : Guard.Token) : Minted (tokenText token) := ⟨_, _, _, _, rfl⟩

/-- What a name is minted of. -/
structure Triple where
  bare : Text
  artifact : Artifact
  token : Guard.Token

namespace Triple

variable (D : Digest) (limit : Nat)

def name (x : Triple) : Text := artifactIdentTok D x.bare x.artifact limit (tokenText x.token)

/-- The run that a name's token tells of. -/
def peer (x : Triple) : PeerRun :=
  ⟨x.token.started % 36 ^ 7, x.token.kind, base36 x.token.source 3, tokenText x.token⟩

/-- The name of `x` is its table's, kind's and run's own, and not that of `y`. -/
structure Owned (x y : Triple) : Prop where
  fits : size (x.name D limit) ≤ limit
  beside : x.name D limit ≠ x.bare
  distinct : x.bare ≠ y.bare ∨ x.artifact ≠ y.artifact ∨ tokenText x.token ≠ tokenText y.token →
    x.name D limit ≠ y.name D limit
  foreign : y.bare ≠ x.bare → ∀ kind run,
    classify D (x.name D limit) y.bare kind limit run = .foreign
  own : ∀ run : RunId, classify D (x.name D limit) x.bare x.artifact limit run =
    if run.token = tokenText x.token then .mine
    else if run.parent = some (tokenText x.token) then .parent
    else .live x.peer
  legacy : ∀ found run, classify D found x.bare x.artifact limit run = .legacy ↔
    found = artifactIdent D x.bare x.artifact limit

/-- No table is called like what names are made of: the head of the other table's names, a
head and the token, or, with the token and the suffix, a name of its own. -/
structure Clear (x y : Triple) : Prop where
  own_name : x.bare ≠ stem D x.bare x.artifact limit ++ tokenText x.token ++ suffix x.artifact
  own_token : x.bare ≠ stem D x.bare x.artifact limit ++ tokenText x.token
  heads : y.bare ≠ x.bare → y.bare ≠ stem D x.bare x.artifact limit ∧
    x.bare ≠ stem D y.bare x.artifact limit
  token : y.bare ≠ x.bare → y.bare ≠ stem D x.bare x.artifact limit ++ tokenText x.token

end Triple

omit limited in
theorem Triple.name_eq (x : Triple) : x.name D limit =
    stem D x.bare x.artifact limit ++ tokenText x.token ++ suffix x.artifact :=
  artifactIdentTok_eq

omit limited in
theorem classify_legacy {found : Text} (is : classify D found bare artifact limit run = .legacy) :
    found = artifactIdent D bare artifact limit := by
  rw [classify, artifactMatch_eq] at is
  dsimp only at is
  by_contra differs
  rw [if_neg differs] at is
  split at is
  · cases is
  · split at is
    · cases is
    · split at is
      · cases is
      · split at is <;> cases is

omit limited in
theorem seen_text (token : Guard.Token) : seen run (tokenText token) =
    if run.token = tokenText token then .mine
    else if run.parent = some (tokenText token) then .parent
    else .live ⟨token.started % 36 ^ 7, token.kind, base36 token.source 3, tokenText token⟩ := by
  rw [seen, tokenText, peerOf_mint]
  simp only [RunId.isSelf, RunId.isParent, decide_eq_true_eq]

theorem Triple.Owned.clear {x y : Triple} (owned : x.Owned D limit y)
    (apart : Apart D x.artifact x.bare y.bare) :
    x.Clear D limit y := by
  have minted := minted_text x.token
  have elsewhere (other : y.bare ≠ x.bare) :
      y.bare ≠ stem D x.bare x.artifact limit ++ tokenText x.token ∧
        stem D y.bare x.artifact limit ≠ stem D x.bare x.artifact limit := by
    have foreign := owned.foreign other x.artifact ⟨tokenText x.token, none⟩
    rw [x.name_eq, classify_name limited minted] at foreign
    have token : y.bare ≠ stem D x.bare x.artifact limit ++ tokenText x.token := by
      intro token
      rw [if_pos token] at foreign
      cases foreign
    refine ⟨token, ?_⟩
    intro same
    rw [if_neg token, if_pos same, seen_text, if_pos rfl] at foreign
    cases foreign
  refine ⟨?_, ?_, ?_, ?_⟩
  · intro own
    exact owned.beside (x.name_eq.trans own.symm)
  · intro own
    have mine := owned.own ⟨tokenText x.token, none⟩
    rw [x.name_eq, classify_name limited minted, if_pos own, if_pos rfl] at mine
    cases mine
  · intro other
    have heads := (stem_eq_iff limited apart).not.mp (elsewhere other).2.symm
    exact ⟨fun called => heads (.inr (.inl called)), fun called => heads (.inr (.inr called))⟩
  · intro other
    exact (elsewhere other).1

theorem Triple.Clear.owned {x y : Triple} (clear : x.Clear D limit y)
    (apart : Apart D x.artifact x.bare y.bare) :
    x.Owned D limit y := by
  have minted := minted_text x.token
  have minted' := minted_text y.token
  have heads (other : y.bare ≠ x.bare) :
      stem D y.bare x.artifact limit ≠ stem D x.bare x.artifact limit := by
    intro same
    obtain one | called | called := (stem_eq_iff limited apart).mp same.symm
    · exact other one.symm
    · exact (clear.heads other).1 called
    · exact (clear.heads other).2 called
  refine ⟨?_, ?_, ?_, ?_, ?_, ?_⟩
  · rw [x.name_eq]
    exact size_name limited minted
  · intro same
    exact clear.own_name (same.symm.trans x.name_eq)
  · intro differ same
    rw [x.name_eq, y.name_eq] at same
    have ends : suffix y.artifact <:+
        stem D x.bare x.artifact limit ++ tokenText x.token ++ suffix x.artifact := by
      rw [same]
      exact List.suffix_append _ _
    have kinds : x.artifact = y.artifact := kind_of_suffix (List.suffix_append _ _) ends
    rw [← kinds] at same
    have fronts := List.append_inj' (List.append_cancel_right same)
      (minted.length.trans minted'.length.symm)
    obtain table | artifact | token := differ
    · exact heads table.symm fronts.1.symm
    · exact artifact kinds
    · exact token fronts.2
  · intro other kind run
    rw [x.name_eq]
    by_cases different : kind = x.artifact
    · rw [different, classify_name limited minted, if_neg (clear.token other),
        if_neg (heads other)]
    · exact classify_other_kind different
  · intro run
    rw [x.name_eq, classify_name limited minted, if_neg clear.own_token, if_pos rfl, seen_text]
    rfl
  · intro found run
    constructor
    · exact classify_legacy
    · rintro rfl
      rw [classify, artifactMatch_eq]
      exact if_pos rfl

/-- A minted name belongs to one table, kind and run, whatever the other table is and whoever
asks, exactly if no table is called like what names are made of. -/
theorem owned_iff_clear (x y : Triple)
    (apart : Apart D x.artifact x.bare y.bare) :
    x.Owned D limit y ↔ x.Clear D limit y :=
  ⟨fun owned => owned.clear limited apart, fun clear => clear.owned limited apart⟩

/-- The table that another one is cut to has the other's names, under every digest. -/
theorem name_cut (x : Triple) :
    Triple.name D limit ⟨stem D x.bare x.artifact limit, x.artifact, x.token⟩ = x.name D limit := by
  rw [Triple.name, Triple.name, artifactIdentTok_eq, artifactIdentTok_eq, stem_stem limited]

end

/-! ## Names as they are taken apart -/

/-- Tokens whose parts fit the places they have. -/
structure Fits (token : Guard.Token) : Prop where
  started : token.started < 36 ^ 7
  source : token.source < 36 ^ 3
  nonce : token.nonce < 36 ^ 4

theorem base36_inj {m n width : Nat} (fits : m < 36 ^ width) (fits' : n < 36 ^ width)
    (same : base36 m width = base36 n width) : m = n := by
  have read : ∀ k, (base36 k width).mapM toDigit36 = some (Radix.digits 36 width k) := fun k =>
    mapM_base36 (Radix.digits_lt (by decide))
  have digits : Radix.digits 36 width m = Radix.digits 36 width n := by
    apply Option.some.inj
    rw [← read, ← read, same]
  rw [← Radix.value_digits_of_lt fits, digits, Radix.value_digits_of_lt fits']

theorem tokenText_inj {a b : Guard.Token} (fits : Fits a) (fits' : Fits b) :
    tokenText a = tokenText b ↔ a = b := by
  refine ⟨?_, congrArg tokenText⟩
  intro same
  have tails := (List.cons.inj same).2
  obtain ⟨started, rest⟩ := List.append_inj tails (by rw [length_base36, length_base36])
  obtain ⟨letters, rest⟩ := List.cons.inj rest
  obtain ⟨source, nonce⟩ := List.append_inj rest (by rw [length_base36, length_base36])
  have kind : a.kind = b.kind := by
    revert letters
    cases a.kind <;> cases b.kind <;> decide
  obtain ⟨started_a, kind_a, source_a, nonce_a⟩ := a
  obtain ⟨started_b, kind_b, source_b, nonce_b⟩ := b
  obtain rfl := base36_inj fits.started fits'.started started
  obtain rfl := base36_inj fits.source fits'.source source
  obtain rfl := base36_inj fits.nonce fits'.nonce nonce
  exact congrArg (fun k => (⟨started_a, k, source_a, nonce_a⟩ : Guard.Token)) kind

/-- What a text stands for, among names that are taken apart. -/
def shown : Guard.Found → Found
  | .foreign => .foreign
  | .mine => .mine
  | .parent => .parent
  | .legacy => .legacy
  | .live peer => .live ⟨peer.started % 36 ^ 7, peer.kind, base36 peer.source 3, tokenText peer⟩

/-- Where no table is called like what names are made of, a name is classified as its table,
kind and run are. -/
theorem classify_shown (x y : Triple) (run : Guard.RunId) (limited : 63 ≤ limit)
    (apart : Apart D x.artifact x.bare y.bare)
    (clear : x.Clear D limit y) (fits : Fits x.token) (fits_run : Fits run.token)
    (fits_parent : ∀ parent ∈ run.parent, Fits parent) :
    classify D (x.name D limit) y.bare y.artifact limit
        ⟨tokenText run.token, run.parent.map tokenText⟩ =
      shown (Guard.classify ⟨String.ofList x.bare, x.artifact, some x.token⟩
        (String.ofList y.bare) y.artifact run) := by
  have owned := clear.owned limited apart
  by_cases table : y.bare = x.bare
  · by_cases kind : y.artifact = x.artifact
    · rw [table, kind, owned.own, Guard.classify]
      have here : ¬ (String.ofList x.bare ≠ String.ofList x.bare ∨ x.artifact ≠ x.artifact) := by
        simp
      have self : tokenText run.token = tokenText x.token ↔ run.token = x.token :=
        tokenText_inj fits_run fits
      have parent : run.parent.map tokenText = some (tokenText x.token) ↔
          run.parent = some x.token := by
        cases is : run.parent with
        | none => simp
        | some parent =>
            rw [Option.map_some, Option.some_inj, Option.some_inj]
            exact tokenText_inj (fits_parent parent is) fits
      dsimp only
      rw [if_neg here]
      simp only [self, parent]
      split
      · rfl
      · split <;> rfl
    · have elsewhere : String.ofList x.bare ≠ String.ofList y.bare ∨ x.artifact ≠ y.artifact :=
        .inr (Ne.symm kind)
      rw [x.name_eq, classify_other_kind kind, Guard.classify]
      dsimp only
      rw [if_pos elsewhere]
      rfl
  · have elsewhere : String.ofList x.bare ≠ String.ofList y.bare ∨ x.artifact ≠ y.artifact :=
      .inl fun same => table (String.ofList_injective same).symm
    rw [owned.foreign table, Guard.classify]
    dsimp only
    rw [if_pos elsewhere]
    rfl

end

namespace Sample

/-- A digest that tells texts apart by their length. -/
def digest : Digest where
  hex t := List.replicate 32 (digit36 (t.length % 16))
  length _ := List.length_replicate
  ascii t c mem := by
    obtain rfl := List.eq_of_mem_replicate mem
    exact (digit36_char _ ((Nat.mod_lt _ (by decide)).trans (by decide))).2.1

def token : Guard.Token := ⟨1700000000, .incremental, 5, 7⟩

def orders : Triple := ⟨"orders".toList, .staging, token⟩

def customers : Triple := ⟨"customers".toList, .lock, token⟩

/-- A table whose name is too long for its staging. -/
def long : Triple := ⟨List.replicate 40 'p', .staging, token⟩

/-- The table called like what the long one is cut to. -/
def head : Triple := ⟨List.replicate 22 'p' ++ "_88888888".toList, .staging, token⟩

end Sample

theorem owned_iff_clear_orders : Sample.orders.Owned Sample.digest 63 Sample.customers := by
  refine (owned_iff_clear (by decide) Sample.orders Sample.customers ?_).mpr ⟨?_, ?_, ?_, ?_⟩
  all_goals decide

/-- Two tables have one name for their staging, although their digests differ. -/
theorem cut_table_shares_name :
    Apart Sample.digest .staging Sample.long.bare Sample.head.bare ∧
      Sample.long.name Sample.digest 63 = Sample.head.name Sample.digest 63 ∧
      ¬ Sample.long.Owned Sample.digest 63 Sample.head := by
  have shared : Sample.long.name Sample.digest 63 = Sample.head.name Sample.digest 63 := by decide
  refine ⟨by decide, shared, ?_⟩
  intro owned
  exact owned.distinct (.inl (by decide)) shared

end Apitap.Naming
