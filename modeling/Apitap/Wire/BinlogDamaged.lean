import Apitap.Wire.BinlogRows
import Mathlib.Tactic.Positivity

/-!
# Damaged binlog events

Whatever the bytes, an event is cut, a table map and a rows event are read to a value or an
error: no index leaves its bytes, no digit leaves a byte, and every turn of the row loop reads
something or ends it. Two kinds of columns can still panic, by a digit or an assertion: a
decimal whose last fraction digits leave room in their bytes for more than they hold, and a
timestamp whose stored fraction passes a second.
-/

namespace Apitap.Rows

open Foundation Decimal
open Copy (be fromBe fromBe_lt)
open Cursor (Sound Gives Takes)

/-- A reader that panics only where the bytes it comes to meet a condition. -/
abbrev Total (S : Bytes → Prop) {α : Type} (p : Read α) : Prop :=
  Sound (fun b e => e = Stop.panic → S b) p

variable {S : Bytes → Prop} {α β : Type} {floats : Floats}

theorem Total.calm {p : Read α} (total : Total (fun _ => False) p) (b : Bytes) :
    p b ≠ .error .panic := fun panics => by
  obtain ⟨_, -, wrong⟩ := total.fails b _ panics
  exact wrong rfl

theorem total_ret (a : α) : Total S (.ret a : Read α) := Cursor.sound_ret a

theorem total_fail (e : Error) : Total S (.fail (.err e) : Read α) :=
  Cursor.sound_fail fun _ => nofun

theorem total_lift {x : Except (Stop Error) α} (calm : x ≠ .error .panic) : Total S (.lift x) :=
  Cursor.sound_lift fun _ _ is panics => absurd (panics ▸ is) calm

/-- What a reader makes of some bytes, as a step of another one. -/
theorem total_inner {p : Read α} (total : Total (fun _ => False) p) (b : Bytes)
    (f : α × Bytes → β) : Total S (.lift ((p b).map f)) := by
  refine total_lift fun panics => ?_
  cases read : p b with
  | ok a =>
      rw [read] at panics
      cases panics
  | error e =>
      rw [read] at panics
      cases panics
      exact total.calm b read

/-! ## Numbers -/

theorem total_take (n : Nat) : Total S (take n) := Cursor.sound_take (fun _ => nofun) n

theorem total_u8 : Total S u8 where
  within b a rest is := by
    cases b with
    | nil => cases is
    | cons b bs =>
        cases is
        exact List.suffix_cons _ _
  fails b e is := by
    cases b with
    | nil =>
        cases is
        exact ⟨[], List.suffix_refl _, nofun⟩
    | cons b bs => cases is

theorem u8_lt {v : Nat} (gives : u8.Gives v) : v < 256 := by
  obtain ⟨b, rest, is⟩ := gives
  cases b with
  | nil => cases is
  | cons b bs =>
      cases is
      exact b.toNat_lt

theorem total_uintLe (n : Nat) : Total S (uintLe n) := (total_take n).andThen fun _ => total_ret _

theorem total_uintBe (n : Nat) : Total S (uintBe n) := (total_take n).andThen fun _ => total_ret _

theorem uintBe_lt {n v : Nat} (gives : (uintBe n).Gives v) : v < 256 ^ n := by
  obtain ⟨bs, taken, given⟩ := gives.of_andThen
  have len : bs.length = n := taken.length
  rw [given.of_ret, ← len]
  exact fromBe_lt bs

theorem total_lenenc : Total S lenenc :=
  total_u8.andThen fun _ => .ite (fun _ => total_uintLe 2) fun _ =>
    .ite (fun _ => total_uintLe 3) fun _ => .ite (fun _ => total_uintLe 8) fun _ => total_ret _

/-! ## Strings and labels -/

theorem total_prefixed (max : Nat) : Total S (prefixed max) :=
  (Sound.ite (fun _ => total_u8) fun _ => total_uintLe 2).andThen total_take

theorem total_blob (metadata : Nat) : Total S (blob metadata) :=
  (Sound.ite (fun _ => total_u8) fun _ => .ite (fun _ => total_uintLe 2) fun _ =>
    .ite (fun _ => total_uintLe 3) fun _ => total_uintLe 4).andThen total_take

theorem total_integer (n : Nat) (unsigned : Bool) : Total S (integer n unsigned) :=
  (total_uintLe n).andThen fun _ => total_ret _

theorem renderEnum_calm (labels : Option (List Bytes)) (v : Nat) :
    renderEnum labels v ≠ .error .panic := by
  by_cases zero : v = 0
  · rw [renderEnum.eq_def, if_pos zero]
    exact nofun
  · rw [renderEnum.eq_def, if_neg zero]
    cases labels with
    | none => exact nofun
    | some l =>
        cases label : l[v - 1]? with
        | none =>
            simp only [label]
            exact nofun
        | some text =>
            simp only [label]
            exact nofun

theorem total_enumCell (labels : Option (List Bytes)) (one : Bool) :
    Total S (enumCell labels one) :=
  (Sound.ite (fun _ => total_u8) fun _ => total_uintLe 2).andThen fun v =>
    total_lift (renderEnum_calm labels v)

theorem renderSet_panic {labels : Option (List Bytes)} {v : Nat}
    (panics : renderSet 44 labels v = .error .panic) : ∃ l, labels = some l ∧ 64 < l.length := by
  rw [renderSet] at panics
  cases labels with
  | none => cases panics
  | some l =>
      rw [Stop.orErr_some, Stop.ok_bind] at panics
      split at panics
      · cases panics
      · split at panics
        · exact ⟨l, rfl, by assumption⟩
        · cases panics

theorem total_setCell (labels : Option (List Bytes)) (len : Nat) :
    Total (fun _ => ∃ l, labels = some l ∧ 64 < l.length) (setCell labels len) :=
  (total_take _).andThen fun _ => Cursor.sound_lift fun _ _ is panics =>
    renderSet_panic (panics ▸ is)

/-! ## Temporal values -/

theorem total_readFrac (fsp : Nat) : Total S (readFrac fsp) :=
  .ite (fun _ => total_ret 0) fun _ =>
    .ite (fun _ => total_u8.andThen fun _ => total_ret _) fun _ =>
      .ite (fun _ => (total_uintBe 2).andThen fun _ => total_ret _) fun _ => total_uintBe 3

/-- The first digit of a fraction fits its byte; the others are below ten. -/
theorem first_digit_lt {fsp v : Nat} (gives : (readFrac fsp).Gives v) :
    v / 10 ^ (6 - min fsp 6) / 10 ^ (min fsp 6 - 1) < 208 := by
  rw [readFrac] at gives
  split at gives
  case isTrue none =>
      rw [gives.of_ret, Nat.zero_div, Nat.zero_div]
      decide
  case isFalse some =>
      split at gives
      case isTrue two =>
          obtain ⟨w, read, given⟩ := gives.of_andThen
          have small := u8_lt read
          rw [given.of_ret]
          obtain rfl | rfl : fsp = 1 ∨ fsp = 2 := by omega
          · norm_num
            omega
          · norm_num
            omega
      case isFalse =>
          split at gives
          case isTrue four =>
              obtain ⟨w, read, given⟩ := gives.of_andThen
              have small := uintBe_lt read
              rw [given.of_ret]
              obtain rfl | rfl : fsp = 3 ∨ fsp = 4 := by omega
              · norm_num
                omega
              · norm_num
                omega
          case isFalse =>
              have small := uintBe_lt gives
              obtain rfl | many : fsp = 5 ∨ min fsp 6 = 6 := by omega
              · norm_num
                omega
              · rw [many]
                norm_num
                omega

/-- The fraction behind the seconds is a second or more. -/
def PastSecond (fsp : Nat) (b : Bytes) : Prop :=
  ∃ micros rest, readFrac fsp (b.drop 4) = .ok (micros, rest) ∧ 10 ^ 6 ≤ micros

theorem fmtEpoch_panic {secs micros : Nat} (small : secs < 256 ^ 4)
    (panics : fmtEpoch secs micros = .error .panic) : 10 ^ 6 ≤ micros := by
  rw [fmtEpoch, Days.civilBinlog_eq (by omega) (by omega), Stop.orPanic_some, Stop.ok_bind]
    at panics
  split at panics
  · split at panics
    · omega
    · cases panics
  · cases panics

theorem takes_uintBe (n : Nat) : Takes n (uintBe n) :=
  (Cursor.takes_take _ n).andThen fun _ => Cursor.takes_ret _

theorem timestamp2_panic {fsp : Nat} {b : Bytes} (panics : timestamp2 fsp b = .error .panic) :
    PastSecond fsp b := by
  obtain failed | ⟨secs, mid, read, panics⟩ := Cursor.andThen_eq_error.mp panics
  · exact ((total_uintBe 4).calm b failed).elim
  obtain failed | ⟨micros, rest, frac, panics⟩ := Cursor.andThen_eq_error.mp panics
  · exact ((total_readFrac fsp).calm mid failed).elim
  rw [takes_uintBe 4 b secs mid read] at frac
  refine ⟨micros, rest, frac, ?_⟩
  have small := uintBe_lt ⟨b, mid, read⟩
  split at panics
  · cases panics
  · cases shown : fmtEpoch secs micros with
    | ok text =>
        rw [shown] at panics
        cases panics
    | error e =>
        rw [shown] at panics
        cases panics
        exact fmtEpoch_panic small shown

theorem total_timestamp2 (fsp : Nat) : Total (PastSecond fsp) (timestamp2 fsp) := by
  have reads : Total (fun _ => True) (timestamp2 fsp) :=
    (total_uintBe 4).andThen fun _ => (total_readFrac fsp).andThen fun _ =>
      .ite (fun _ => total_ret _) fun _ => Cursor.sound_lift fun _ _ _ _ => trivial
  exact reads.told fun b e is panics => timestamp2_panic (panics ▸ is)

theorem total_datetime2 (fsp : Nat) : Total S (datetime2 fsp) :=
  (total_uintBe 5).andThen fun _ => (total_readFrac fsp).andThen fun _ => total_ret _

theorem total_packedTime (fsp : Nat) : Total S (packedTime fsp) :=
  (total_uintBe 3).andThen fun _ => .ite (fun _ => total_ret _) fun _ =>
    .ite (fun _ => total_u8.andThen fun _ => total_ret _) fun _ =>
      .ite (fun _ => (total_uintBe 2).andThen fun _ => total_ret _) fun _ =>
        (total_uintBe 3).andThen fun _ => total_ret _

theorem total_time2 (fsp : Nat) : Total S (time2 fsp) := by
  refine (total_packedTime fsp).andThen fun packed => ?_
  simp only
  exact .ite (fun _ => total_fail _) fun _ => total_ret _

/-! ## Decimals -/

/-- A first digit that fits its byte, and others that do. -/
theorem pushPadded_step {width v : Nat} (digit : v / 10 ^ width < 208)
    (rest : pushPadded width (v % 10 ^ width) ≠ .error .panic) :
    pushPadded (width + 1) v ≠ .error .panic := by
  have byte : ¬ 208 ≤ v / 10 ^ width % 256 :=
    Nat.not_le.mpr (Nat.lt_of_le_of_lt (Nat.mod_le _ _) digit)
  rw [pushPadded, if_neg byte]
  intro panics
  cases more : pushPadded width (v % 10 ^ width) with
  | ok ds =>
      rw [more] at panics
      cases panics
  | error e =>
      rw [more] at panics rest
      cases panics
      exact rest rfl

theorem pushPadded_of_lt {width v : Nat} (small : v < 10 ^ width) :
    pushPadded width v ≠ .error .panic := by
  induction width generalizing v with
  | zero => exact nofun
  | succ width ih =>
      have digit : v / 10 ^ width < 10 :=
        Nat.div_lt_of_lt_mul (by rwa [Nat.pow_succ] at small)
      exact pushPadded_step (Nat.lt_of_lt_of_le digit (by decide))
        (ih (Nat.mod_lt v (by positivity)))

/-- A panic is one of the first digit. -/
theorem pushPadded_panic {width v : Nat} (panics : pushPadded width v = .error .panic) :
    0 < width ∧ 208 ≤ v / 10 ^ (width - 1) % 256 := by
  cases width with
  | zero => cases panics
  | succ width =>
      refine ⟨Nat.succ_pos width, ?_⟩
      by_contra digit
      rw [Nat.add_sub_cancel] at digit
      rw [pushPadded, if_neg digit] at panics
      have rest := pushPadded_of_lt (Nat.mod_lt v (y := 10 ^ width) (by positivity))
      cases more : pushPadded width (v % 10 ^ width) with
      | ok ds =>
          rw [more] at panics
          cases panics
      | error e =>
          rw [more] at panics rest
          cases panics
          exact rest rfl

theorem total_group {v : Nat} (gives : (uintBe 4).Gives v) : Total S (.lift (pushPadded 9 v)) := by
  have small := uintBe_lt gives
  refine total_lift fun panics => ?_
  have digit := (pushPadded_panic panics).2
  omega

theorem total_fullGroups (n : Nat) (out : Bytes) : Total S (fullGroups n out) := by
  induction n generalizing out with
  | zero => exact total_ret out
  | succ n ih =>
      refine (total_uintBe 4).andThen_gives fun v read => .ite (fun _ => ?_) fun _ => ih _
      exact (total_group read).andThen fun ds => ih _

theorem total_paddedGroups (n : Nat) : Total S (paddedGroups n) := by
  induction n with
  | zero => exact total_ret []
  | succ n ih =>
      refine (total_uintBe 4).andThen_gives fun v read => ?_
      exact (total_group read).andThen fun ds => ih.andThen fun more => total_ret _

theorem takes_fullGroups (n : Nat) (out : Bytes) : Takes (4 * n) (fullGroups n out) := by
  induction n generalizing out with
  | zero => exact Cursor.takes_ret out
  | succ n ih =>
      rw [Nat.mul_succ, Nat.add_comm]
      refine (takes_uintBe 4).andThen fun v => .ite (fun _ => ?_) fun _ => ih _
      have more := (Cursor.takes_lift (pushPadded 9 v)).andThen fun ds => ih (out ++ ds)
      rwa [Nat.zero_add] at more

theorem takes_paddedGroups (n : Nat) : Takes (4 * n) (paddedGroups n) := by
  induction n with
  | zero => exact Cursor.takes_ret []
  | succ n ih =>
      rw [Nat.mul_succ, Nat.add_comm]
      refine (takes_uintBe 4).andThen fun v => ?_
      have more := (Cursor.takes_lift (pushPadded 9 v)).andThen fun ds =>
        ih.andThen fun more => Cursor.takes_ret (ds ++ more)
      rwa [Nat.zero_add, Nat.add_zero] at more

/-- The digits before the first full group. -/
theorem takes_first (digits : Nat) : Takes (bytesFor digits)
    (if 0 < digits then (uintBe (bytesFor digits)).andThen fun v => .ret (firstGroup v)
      else .ret [] : Read Bytes) := by
  by_cases some_digits : 0 < digits
  · rw [if_pos some_digits]
    exact (takes_uintBe _).andThen fun v => Cursor.takes_ret _
  · rw [if_neg some_digits, Nat.eq_zero_of_not_pos some_digits]
    exact Cursor.takes_ret []

/-- The number the last fraction digits are stored as, behind all groups. -/
def lastGroup (precision scale : Nat) (digits : Bytes) : Nat :=
  fromBe (digits.drop (decimalSize precision scale - bytesFor (scale % 9)) |>.take
    (bytesFor (scale % 9)))

/-- A number's first digit, of so many, leaves its byte. -/
def Overfull (width v : Nat) : Prop := 0 < width ∧ 208 ≤ v / 10 ^ (width - 1) % 256

theorem decimalDigits_panic {precision scale : Nat} {b : Bytes}
    (panics : decimalDigits precision scale b = .error .panic) :
    Overfull (scale % 9) (lastGroup precision scale b) := by
  obtain failed | ⟨first, r₁, read₁, panics⟩ := Cursor.andThen_eq_error.mp panics
  · have total : Total (fun _ => False) (if 0 < (precision - scale) % 9 then
        (uintBe (bytesFor ((precision - scale) % 9))).andThen fun v => .ret (firstGroup v)
        else .ret [] : Read Bytes) :=
      .ite (fun _ => (total_uintBe _).andThen fun _ => total_ret _) fun _ => total_ret []
    exact (total.calm b failed).elim
  obtain failed | ⟨int, r₂, read₂, panics⟩ := Cursor.andThen_eq_error.mp panics
  · exact ((total_fullGroups _ first).calm r₁ failed).elim
  split at panics
  case isFalse => cases panics
  obtain failed | ⟨frac, r₃, read₃, panics⟩ := Cursor.andThen_eq_error.mp panics
  · exact ((total_paddedGroups _).calm r₂ failed).elim
  have behind : r₃ = b.drop (decimalSize precision scale - bytesFor (scale % 9)) := by
    rw [takes_paddedGroups _ r₂ frac r₃ read₃, takes_fullGroups _ first r₁ int r₂ read₂,
      takes_first _ b first r₁ read₁, List.drop_drop, List.drop_drop, decimalSize]
    congr 1
    omega
  obtain panics | ⟨last, r₄, -, panics⟩ := Cursor.andThen_eq_error.mp panics
  · split at panics
    case isFalse => cases panics
    obtain failed | ⟨v, r₄, read₄, panics⟩ := Cursor.andThen_eq_error.mp panics
    · exact ((total_uintBe _).calm r₃ failed).elim
    have stored : v = lastGroup precision scale b := by
      obtain ⟨bs, mid, taken, given⟩ := Cursor.andThen_eq_ok.mp read₄
      cases given
      rw [take, Cursor.take] at taken
      split at taken
      · cases taken
        rw [lastGroup, behind]
      · cases taken
    rw [← stored]
    cases more : pushPadded (scale % 9) v with
    | ok ds =>
        rw [more] at panics
        cases panics
    | error e =>
        rw [more] at panics
        cases panics
        exact pushPadded_panic more
  · cases panics

theorem decimalSize_pos {precision scale : Nat} (legal : 0 < precision ∧ scale ≤ precision) :
    0 < decimalSize precision scale := by
  have some_bytes {n : Nat} (some : 0 < n % 9) : 0 < bytesFor (n % 9) := by
    have small : n % 9 < 9 := Nat.mod_lt n (by decide)
    interval_cases n % 9 <;> decide
  rw [decimalSize]
  by_cases int : 0 < (precision - scale) % 9
  · have bytes := some_bytes int
    omega
  · by_cases frac : 0 < scale % 9
    · have bytes := some_bytes frac
      omega
    · omega

/-- The last fraction digits, with the sign taken out of the bytes, leave their byte. -/
def LastOverfull (precision scale : Nat) (b : Bytes) : Prop :=
  ∃ negative digits, unsign (b.take (decimalSize precision scale)) = .ok (negative, digits) ∧
    Overfull (scale % 9) (lastGroup precision scale digits)

/-- One fraction digit in a byte that holds 255 leaves no digit to write. -/
example : decodeDecimal 2 1 [0x80, 0xFF] = .error .panic := rfl

theorem decodeDecimal_panic {precision scale : Nat} {b : Bytes}
    (panics : decodeDecimal precision scale b = .error .panic) :
    LastOverfull precision scale b := by
  rw [decodeDecimal] at panics
  split at panics
  case isTrue => cases panics
  case isFalse legal =>
      have pos : 0 < decimalSize precision scale := decimalSize_pos (by omega)
      obtain failed | ⟨raw, mid, taken, panics⟩ := Cursor.andThen_eq_error.mp panics
      · exact ((total_take _).calm b failed).elim
      have some_bytes : 0 < raw.length := by
        rw [Cursor.Gives.length ⟨b, mid, taken⟩]
        exact pos
      have raw_is : raw = b.take (decimalSize precision scale) := by
        rw [take, Cursor.take] at taken
        split at taken
        · cases taken
          rfl
        · cases taken
      cases raw with
      | nil => cases some_bytes
      | cons first rest =>
          obtain failed | ⟨⟨negative, digits⟩, mid', signed, panics⟩ :=
            Cursor.andThen_eq_error.mp panics
          · cases failed
          refine ⟨negative, digits, ?_, ?_⟩
          · rw [← raw_is]
            cases given : unsign (first :: rest) with
            | error e =>
                rw [given] at signed
                cases signed
            | ok found =>
                rw [given] at signed
                cases signed
                rfl
          · cases read : decimalDigits precision scale digits with
            | ok found =>
                simp only [read] at panics
                cases panics
            | error e =>
                simp only [read] at panics
                cases panics
                exact decimalDigits_panic read

theorem total_decodeDecimal (precision scale : Nat) :
    Total (LastOverfull precision scale) (decodeDecimal precision scale) := by
  have reads : Total (fun _ => True) (decodeDecimal precision scale) := by
    refine .ite (fun _ => total_fail _) fun _ => (total_take _).andThen fun raw => ?_
    refine Sound.andThen (Cursor.sound_lift fun _ _ _ _ => trivial) fun (negative, digits) => ?_
    exact Cursor.sound_lift fun _ _ _ _ => trivial
  exact reads.told fun b e is panics => decodeDecimal_panic (panics ▸ is)

/-! ## A cell -/

/-- A SET, by itself or folded into a string. -/
def IsSet (c : ColDef) : Prop :=
  c.kind = .set ∨ (c.kind = .string ∧ (stringMeta c.metadata).1 = 0xf8)

instance (c : ColDef) : Decidable (IsSet c) := inferInstanceAs (Decidable (_ ∨ _))

/-- A value at which a column panics: a decimal whose last fraction digits leave their byte, a
timestamp whose fraction passes a second, and any of a SET with more labels than a mask has
bits. -/
def Wild (c : ColDef) (b : Bytes) : Prop :=
  (c.kind = .newdecimal ∧ LastOverfull (c.metadata / 256) (c.metadata % 256) b) ∨
    (c.kind = .timestamp2 ∧ PastSecond (c.metadata % 256) b) ∨
    (IsSet c ∧ ∃ l, c.labels = some l ∧ 64 < l.length)

theorem total_string {c : ColDef} (kind : c.kind = .string) :
    Total (Wild c) (decodeCell floats c) := by
  rw [decodeCell, kind]
  simp only
  refine .ite (fun _ => total_enumCell _ _) fun _ => .ite (fun set => ?_) fun _ => ?_
  · exact (total_setCell _ _).mono fun _ _ many panics =>
      .inr (.inr ⟨.inr ⟨kind, set⟩, many panics⟩)
  · exact (total_prefixed _).andThen fun v => total_ret _

theorem total_decodeCell (c : ColDef) : Total (Wild c) (decodeCell floats c) := by
  cases kind : c.kind with
  | string => exact total_string kind
  | newdecimal =>
      rw [decodeCell, kind]
      exact (total_decodeDecimal _ _).mono fun _ _ beyond panics => .inl ⟨kind, beyond panics⟩
  | timestamp2 =>
      rw [decodeCell, kind]
      exact (total_timestamp2 _).mono fun _ _ past panics => .inr (.inl ⟨kind, past panics⟩)
  | set =>
      rw [decodeCell, kind]
      exact (total_setCell _ _).mono fun _ _ many panics =>
        .inr (.inr ⟨.inl kind, many panics⟩)
  | enum =>
      rw [decodeCell, kind]
      exact total_enumCell _ _
  | tiny =>
      rw [decodeCell, kind]
      exact total_u8.andThen fun _ => total_ret _
  | year =>
      rw [decodeCell, kind]
      exact total_u8.andThen fun _ => total_ret _
  | float =>
      rw [decodeCell, kind]
      exact (total_uintLe 4).andThen fun _ => total_ret _
  | double =>
      rw [decodeCell, kind]
      exact (total_uintLe 8).andThen fun _ => total_ret _
  | date =>
      rw [decodeCell, kind]
      exact (total_uintLe 3).andThen fun _ => total_ret _
  | datetime2 =>
      rw [decodeCell, kind]
      exact total_datetime2 _
  | time2 =>
      rw [decodeCell, kind]
      exact total_time2 _
  | bit =>
      rw [decodeCell, kind]
      exact total_take _
  | null =>
      rw [decodeCell, kind]
      exact total_ret _
  | timestamp =>
      rw [decodeCell, kind]
      exact total_fail _
  | other code =>
      rw [decodeCell, kind]
      exact total_fail _
  | varchar | varString =>
      rw [decodeCell, kind]
      exact total_prefixed _
  | short | int24 | long | longlong =>
      rw [decodeCell, kind]
      exact total_integer _ _
  | blob | tinyBlob | mediumBlob | longBlob | geometry | json =>
      rw [decodeCell, kind]
      exact total_blob _

/-! ## Rows -/

variable {cols : List ColDef}

theorem total_readCells (present nullbm : Bytes) (wild : ∀ c ∈ cols, ∀ b, Wild c b → S b)
    (i k : Nat) (frame : Bytes) : Total S (readCells floats present nullbm cols i k frame) := by
  induction cols generalizing i k frame with
  | nil => exact total_ret _
  | cons c cols ih =>
      have rest := ih fun d d_mem => wild d (List.mem_cons_of_mem _ d_mem)
      have cell : Total S (decodeCell floats c) := (total_decodeCell c).mono fun b _ bad panics =>
        wild c List.mem_cons_self b (bad panics)
      refine .ite (fun _ => (rest _ _ _).andThen fun _ => total_ret _) fun _ =>
        .ite (fun _ => (rest _ _ _).andThen fun _ => total_ret _) fun _ => ?_
      exact cell.andThen fun v => (rest _ _ _).andThen fun _ => total_ret _

theorem total_readRow (wild : ∀ c ∈ cols, ∀ b, Wild c b → S b) (present : Bytes) (ncols : Nat) :
    Total S (readRow floats cols present ncols) :=
  (total_take _).andThen fun nullbm =>
    (total_readCells present nullbm (fun c c_mem => wild c (List.mem_of_mem_take c_mem)) 0 0
      []).andThen fun _ => total_ret _

theorem total_rowChange (wild : ∀ c ∈ cols, ∀ b, Wild c b → S b) (op : RowOp) (h : RowsHead) :
    Total S (rowChange floats cols op h) := by
  cases op with
  | insert =>
      rw [rowChange]
      exact (total_readRow wild _ _).andThen fun _ => total_ret _
  | delete =>
      rw [rowChange]
      exact (total_readRow wild _ _).andThen fun _ => total_ret _
  | update =>
      rw [rowChange]
      exact (total_readRow wild _ _).andThen fun _ =>
        (total_readRow wild _ _).andThen fun _ => total_ret _

theorem total_extraData (kind : Nat) : Total S (extraData kind) :=
  .ite (fun _ => (total_uintLe 2).andThen fun _ =>
    .ite (fun _ => total_take _) fun _ => total_ret _) fun _ => total_ret _

theorem total_rowsHead (kind : Nat) (op : RowOp) (mapped : Nat) :
    Total S (rowsHead kind op mapped) :=
  (total_uintLe 6).andThen fun _ => (total_take 2).andThen fun _ =>
    (total_extraData kind).andThen fun _ => total_lenenc.andThen fun _ =>
      .ite (fun _ => total_fail _) fun _ => (total_take _).andThen fun _ =>
        (Sound.ite (fun _ => total_take _) fun _ => total_ret _).andThen fun _ => total_ret _

/-- The columns of a table map, in the bits of their bitmap. -/
theorem columns_eq {bm : Bytes} {cs : List (Mt × Nat)} {i : Nat}
    (room : i + cs.length ≤ 8 * bm.length) : columns bm cs i =
      .ok ((cs.zipIdx i).map fun (c, j) =>
        ⟨c.1, c.2, Bitmap.bit bm j, false, false, none⟩) := by
  induction cs generalizing i with
  | nil => rfl
  | cons c cs ih =>
      obtain ⟨kind, metadata⟩ := c
      rw [List.length_cons] at room
      have stored : i / 8 < bm.length := by omega
      have here : nullableAt bm i = .ok (Bitmap.bit bm i) := by
        rw [nullableAt, Bitmap.bit, List.getElem?_eq_getElem stored, Stop.orPanic_some, Except.map,
          Option.any_some]
      rw [columns, here, Stop.ok_bind, ih (by omega), Except.map]
      rfl

theorem total_metadataBytes (n : Nat) : Total S (metadataBytes n) :=
  Cursor.sound_take (fun _ => nofun) n

theorem total_columnMetadata (kind : Mt) : Total S (columnMetadata kind) := by
  cases kind with
  | float | double | blob | tinyBlob | mediumBlob | longBlob | geometry | json | time2 | datetime2
  | timestamp2 =>
      rw [columnMetadata]
      exact (total_metadataBytes 1).andThen fun _ => total_ret _
  | varchar | varString | string | enum | set | newdecimal | bit =>
      rw [columnMetadata]
      exact (total_metadataBytes 2).andThen fun _ => total_ret _
  | _ => exact total_ret 0

theorem total_name : Total S name :=
  total_u8.andThen fun _ => (total_take _).andThen fun _ => total_u8.andThen fun _ => total_ret _

theorem total_tableMap (lossy : Bytes → String) : Total S (tableMap lossy) := by
  refine (total_uintLe 6).andThen fun tableId => (total_take 2).andThen fun _ =>
    total_name.andThen fun db => total_name.andThen fun table => total_lenenc.andThen fun ncols =>
      (total_take ncols).andThen_gives fun kinds taken =>
        (total_lenenc.andThen total_take).andThen fun metablob =>
          (total_inner (Cursor.sound_each fun kind _ =>
            total_columnMetadata kind) metablob _).andThen
            fun metadata => (total_take _).andThen_gives fun bm bits => ?_
  have room : 0 + ((kinds.map fun b => Mt.ofByte b.toNat).zip metadata).length ≤ 8 * bm.length := by
    have fewer : ((kinds.map fun b => Mt.ofByte b.toNat).zip metadata).length ≤ kinds.length := by
      rw [List.length_zip, List.length_map]
      exact Nat.min_le_left _ _
    rw [bits.length]
    rw [taken.length] at fewer
    omega
  refine (total_lift ?_).andThen fun cols => total_ret _
  rw [columns_eq room]
  exact nofun

/-! ## The whole event -/

theorem slice_ok {b : Bytes} {first last : Nat} (order : first ≤ last) (within : last ≤ b.length) :
    slice b first last = .ok ((b.take last).drop first) := if_pos ⟨order, within⟩

theorem splitEvent_calm (ev : Bytes) (checksummed : Bool) :
    splitEvent ev checksummed ≠ .error .panic := by
  rw [splitEvent, headerLen]
  by_cases short : ev.length < 19
  · rw [if_pos short]
    exact nofun
  · have header : ∃ h, eventHeader ev = .ok h := by
      rw [eventHeader, slice_ok (by decide) (by omega), Stop.ok_bind,
        slice_ok (by decide) (by omega), Stop.ok_bind, slice_ok (by decide)
          (by omega), Stop.ok_bind,
        slice_ok (by decide) (by omega), Stop.ok_bind, slice_ok (by decide) (by omega), Except.map]
      exact ⟨_, rfl⟩
    obtain ⟨h, header⟩ := header
    have ends : ∃ last ≤ ev.length, (if checksummed = true then
        Stop.orErr (bad "no room for checksum") (if 4 ≤ ev.length then some
          (ev.length - 4) else none)
        else .ok ev.length) = .ok last := by
      cases checksummed with
      | true => exact ⟨ev.length - 4, Nat.sub_le _ _, by rw [if_pos rfl, if_pos (by omega)]; rfl⟩
      | false => exact ⟨ev.length, Nat.le_refl _, if_neg Bool.false_ne_true⟩
    obtain ⟨last, within, ends⟩ := ends
    rw [if_neg short, header, Stop.ok_bind, ends, Stop.ok_bind]
    split
    · exact nofun
    · rw [slice_ok (by omega) within, Except.map]
      exact nofun

theorem parseTableMap_calm (lossy : Bytes → String) (body : Bytes) :
    parseTableMap lossy body ≠ .error .panic := by
  intro panics
  rw [parseTableMap] at panics
  cases read : tableMap lossy body with
  | ok a =>
      rw [read] at panics
      cases panics
  | error e =>
      rw [read] at panics
      cases panics
      exact (total_tableMap lossy).calm body read

/-- Every turn reads something or ends the loop, so as many turns as bytes and one suffice. -/
theorem rowsLoop_returns {change : Read Change} (total : Total S change) {turns : Nat} {b : Bytes}
    (enough : b.length < turns) :
    ∃ rows, rowsLoop change turns b = some rows ∧
      (rows = .error .panic → ∃ at_, at_ <:+ b ∧ S at_) := by
  induction turns generalizing b with
  | zero => cases enough
  | succ turns ih =>
      rw [rowsLoop]
      by_cases empty : b = []
      · exact ⟨_, if_pos empty, nofun⟩
      · rw [if_neg empty]
        cases read : change b with
        | error e =>
            refine ⟨_, rfl, fun panics => ?_⟩
            cases panics
            obtain ⟨at_, behind, bad⟩ := total.fails b _ read
            exact ⟨at_, behind, bad rfl⟩
        | ok step =>
            obtain ⟨row, rest⟩ := step
            simp only
            by_cases stuck : rest.length = b.length
            · exact ⟨_, if_pos stuck, nofun⟩
            · have within := total.within b row rest read
              have fewer := within.length_le
              obtain ⟨rows, more, panics⟩ := ih (b := rest) (by omega)
              refine ⟨_, by rw [if_neg stuck, more]; rfl, fun bad => ?_⟩
              cases rows with
              | ok rows => cases bad
              | error e =>
                  cases bad
                  obtain ⟨at_, behind, bad⟩ := panics rfl
                  exact ⟨at_, behind.trans within, bad⟩

/-- Rows end with a value or an error, or with the panic of a column at a wild value. -/
theorem parseRows_returns (floats : Floats) {turns : Nat} {body : Bytes} (kind : Nat) (m : TableMap)
    (enough : body.length < turns) : ∃ event, parseRows floats turns body kind m = some event ∧
      (event = .error .panic → ∃ at_, at_ <:+ body ∧ ∃ c ∈ m.cols, Wild c at_) := by
  rw [parseRows]
  cases op_is : rowOp kind with
  | error e =>
      refine ⟨_, rfl, fun panics => ?_⟩
      cases panics
      rw [rowOp] at op_is
      split at op_is
      · cases op_is
      · split at op_is
        · cases op_is
        · split at op_is
          · cases op_is
          · cases op_is
  | ok op =>
      simp only
      have total : Total (fun _ => False) (rowsHead kind op m.cols.length) :=
        total_rowsHead kind op _
      cases head : rowsHead kind op m.cols.length body with
      | error e =>
          refine ⟨_, rfl, fun panics => ?_⟩
          cases panics
          exact (total.calm body head).elim
      | ok read =>
          obtain ⟨h, rest⟩ := read
          have within := total.within body h rest head
          have fewer := within.length_le
          have change : Total (fun b => ∃ c ∈ m.cols, Wild c b) (rowChange floats m.cols op h) :=
            total_rowChange (fun c c_mem b wild => ⟨c, c_mem, wild⟩) op h
          obtain ⟨rows, looped, panics⟩ :=
            rowsLoop_returns change (show rest.length < turns by omega)
          refine ⟨_, by simp only [looped]; rfl, fun bad => ?_⟩
          cases rows with
          | ok rows => cases bad
          | error e =>
              cases bad
              obtain ⟨at_, behind, wild⟩ := panics rfl
              exact ⟨at_, behind.trans within, wild⟩

end Apitap.Rows
