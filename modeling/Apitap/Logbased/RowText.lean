import Apitap.Foundation.Lanes
import Apitap.Foundation.Separated
import Apitap.Wire.Pgoutput

/-!
# Rows as COPY text

A cell's text is escaped by a scan that skips clean bytes eight at a time, a row is its cells
with a tab between two and a newline behind, and NULL is a spelling no escaped text has.
-/

namespace Apitap.RowText

open Foundation

def backslash : UInt8 := 0x5C
def tab : UInt8 := 0x09
def newline : UInt8 := 0x0A
def carriageReturn : UInt8 := 0x0D

/-- The four bytes the framing must escape. -/
def isSpecial (b : UInt8) : Bool :=
  b = backslash || b = tab || b = newline || b = carriageReturn

/-- A one in every byte, and the top bit of every byte. -/
def L : UInt64 := 0x0101010101010101
def H : UInt64 := 0x8080808080808080

/-- Eight bytes as a word, the first one lowest. -/
def fromLeBytes (bs : Bytes) : UInt64 := UInt64.ofNat (Lanes.value bs)

/-- Whether a word has one of the four special bytes. -/
def wordHasSpecial (w : UInt64) : Bool :=
  let a := w ^^^ (L * 0x5C)
  let b := w ^^^ (L * 0x09)
  let c := w ^^^ (L * 0x0A)
  let d := w ^^^ (L * 0x0D)
  (((a - L) &&& ~~~a) ||| ((b - L) &&& ~~~b) ||| ((c - L) &&& ~~~c) ||| ((d - L) &&& ~~~d)) &&&
    H ≠ 0

/-- From `i` on over whole words without a special byte. -/
def skipWords (v : Bytes) (i : Nat) : Nat :=
  if i + 8 ≤ v.length then
    if wordHasSpecial (fromLeBytes ((v.drop i).take 8)) then i else skipWords v (i + 8)
  else i
termination_by v.length - i

/-- From `i` on over single bytes that are not special. -/
def skipBytes (v : Bytes) (i : Nat) : Nat :=
  match here : v[i]? with
  | some b => if isSpecial b then i else skipBytes v (i + 1)
  | none => i
termination_by v.length - i
decreasing_by
  have within := (List.getElem?_eq_some_iff.mp here).1
  omega

/-- What a special byte is written as. -/
def escaped (b : UInt8) : Bytes :=
  if b = backslash then [backslash, backslash]
  else if b = tab then [backslash, 't'.toUInt8]
  else if b = newline then [backslash, 'n'.toUInt8]
  else [backslash, 'r'.toUInt8]

theorem le_skipWords (v : Bytes) (i : Nat) : i ≤ skipWords v i := by
  fun_induction skipWords v i with
  | case1 i within found => exact Nat.le_refl i
  | case2 i within clean ih => omega
  | case3 i short => exact Nat.le_refl i

theorem le_skipBytes (v : Bytes) (i : Nat) : i ≤ skipBytes v i := by
  fun_induction skipBytes v i with
  | case1 i b here special => exact Nat.le_refl i
  | case2 i b here clean ih => omega
  | case3 i past => exact Nat.le_refl i

/-- The scan from `start` on: the clean run is copied at once, the byte it ends at escaped. -/
def copyEscapeFrom (v : Bytes) (start : Nat) (out : Bytes) : Bytes :=
  if start < v.length then
    let i := skipBytes v (skipWords v start)
    let out := out ++ (v.drop start).take (i - start)
    match v[i]? with
    | some b => copyEscapeFrom v (i + 1) (out ++ escaped b)
    | none => out
  else out
termination_by v.length - start
decreasing_by
  have words := le_skipWords v start
  have bytes := le_skipBytes v (skipWords v start)
  omega

def copyEscape (v out : Bytes) : Bytes := copyEscapeFrom v 0 out

/-- Escaping byte by byte. -/
def escapeByte (b : UInt8) : Bytes := if isSpecial b then escaped b else [b]

/-- What stands for an escaped byte. -/
def unescaped (b : UInt8) : Bytes :=
  if b = 0x74 then [tab]
  else if b = 0x6E then [newline]
  else if b = 0x72 then [carriageReturn]
  else if b = backslash then [backslash]
  else if b = 0x27 then [0x27]
  else if b = 0x62 then [0x08]
  else if b = 0x66 then [0x0C]
  else if b = 0x30 then [0x00]
  else [backslash, b]

def unescapeFrom : Bytes → Bytes
  | [] => []
  | b :: rest =>
      if b ≠ backslash then b :: unescapeFrom rest
      else
        match rest with
        | e :: rest => unescaped e ++ unescapeFrom rest
        | [] => [backslash]

/-- `\N`. -/
def nullText : Bytes := [backslash, 0x4E]

def tsvUnescape (field : Bytes) : Option Bytes :=
  if field = nullText then none else some (unescapeFrom field)

/-- Bytes as hexadecimal text: digits only, and read back as they were. -/
structure Hex where
  encode : Bytes → Bytes
  decode : Bytes → Option Bytes
  decode_encode : ∀ v, decode (encode v) = some v
  plain : ∀ v, ∀ b ∈ encode v, isSpecial b = false

/-- `\\x` and the hex digits, for a column of raw bytes. -/
def copyByteaHex (hexer : Hex) (v out : Bytes) : Bytes :=
  out ++ [backslash, backslash, 0x78] ++ hexer.encode v

def decodeBytea (hexer : Hex) (t : Bytes) : Except Error Bytes :=
  match t with
  | a :: b :: digits =>
      if a = backslash ∧ b = 0x78 then
        match hexer.decode digits with
        | some v => .ok v
        | none => .error (.transfer "log_based: bad bytea hex from WAL")
      else .error (.transfer "log_based: bytea value without \\x prefix")
  | _ => .error (.transfer "log_based: bytea value without \\x prefix")

/-- The cells of a row from column `i` on; `hex` marks the columns of raw bytes. -/
def renderCells (hexer : Hex) (hex : List Bool) : Nat → List Cell → Bytes → Except Error Bytes
  | _, [], out => .ok out
  | i, cell :: cells, out =>
      let out := if 0 < i then out ++ [tab] else out
      match cell with
      | .null => renderCells hexer hex (i + 1) cells (out ++ nullText)
      | .text t =>
          if hex.getD i false then renderCells hexer hex (i + 1) cells (copyByteaHex hexer t out)
          else renderCells hexer hex (i + 1) cells (copyEscape t out)
      | .unchangedToast =>
          .error (.transfer ("log_based: unchanged-TOAST cell reached the bulk path — " ++
            "collapse bug"))

def renderCopyRow (hexer : Hex) (row : Tuple) (hex : List Bool) (out : Bytes) :
    Except Error Bytes :=
  (renderCells hexer hex 0 row.views out).map (· ++ [newline])

/-- Rows one after another into one buffer. -/
def renderRows (hexer : Hex) (hex : List Bool) : List Tuple → Bytes → Except Error Bytes
  | [], out => .ok out
  | row :: rows, out => (renderCopyRow hexer row hex out).bind (renderRows hexer hex rows)

/-! ## Escaping by words is escaping by bytes -/

section escape

variable {v bs : Bytes} {b : UInt8} {i j : Nat}

theorem isSpecial_iff : isSpecial b = true ↔
    b = backslash ∨ b = tab ∨ b = newline ∨ b = carriageReturn := by
  simp only [isSpecial, Bool.or_eq_true, decide_eq_true_eq, or_assoc]

theorem toNat_fromLeBytes (eight : bs.length = 8) :
    (fromLeBytes bs).toNat = Lanes.value bs := by
  have fits := Lanes.value_lt bs
  rw [eight] at fits
  exact UInt64.toNat_ofNat_of_lt fits

/-- Laid against a byte it contains, a word shows a borrow. -/
theorem borrow_of_mem (eight : bs.length = 8) {c : UInt8} (mem : c ∈ bs) {w : UInt64}
    (laid : w.toNat = Lanes.value (bs.map (· ^^^ c))) : ((w - L) &&& ~~~w) &&& H ≠ 0 := by
  have zero : 0 ∈ bs.map (· ^^^ c) := List.mem_map.mpr ⟨c, mem, UInt8.xor_self⟩
  obtain ⟨j, within, clear, set⟩ := Lanes.exists_borrow zero
  rw [List.length_map, eight] at within set
  have below : 8 * j + 7 < 64 := by omega
  have top : H.toNat.testBit (8 * j + 7) = true := by
    have each : ∀ k < 8, H.toNat.testBit (8 * k + 7) = true := by decide
    exact each j within
  have lent : (w - L).toNat.testBit (8 * j + 7) = true := by
    have wrapped : (w - L).toNat = (2 ^ 64 - L.toNat + w.toNat) % 2 ^ 64 := UInt64.toNat_sub w L
    have one : L.toNat = Lanes.ones 8 := by decide
    have bound := Lanes.ones_lt 8
    rw [wrapped, one, laid, Nat.testBit_mod_two_pow, decide_eq_true below, Bool.true_and]
    rw [show 2 ^ 64 - Lanes.ones 8 + Lanes.value (bs.map (· ^^^ c)) =
      Lanes.value (bs.map (· ^^^ c)) + 256 ^ 8 - Lanes.ones 8 by omega]
    exact set
  have unset : (~~~w).toNat.testBit (8 * j + 7) = true := by
    have code : (~~~w).toNat = 2 ^ 64 - (w.toNat + 1) := by
      rw [UInt64.toNat_not, show UInt64.size - 1 = 2 ^ 64 - 1 from rfl]
      omega
    rw [code, Nat.testBit_two_pow_sub_succ w.toNat_lt, decide_eq_true below, laid, clear]
    rfl
  intro none
  have bits : (((w - L) &&& ~~~w) &&& H).toNat.testBit (8 * j + 7) = true := by
    rw [UInt64.toNat_and, UInt64.toNat_and, Nat.testBit_and, Nat.testBit_and, lent, unset, top]
    rfl
  rw [none] at bits
  exact absurd bits (by simp)

/-- A word laid against one byte eight times over. -/
theorem toNat_laid (eight : bs.length = 8) {m : UInt64} {c : UInt8}
    (spread : m.toNat = Lanes.value (List.replicate 8 c)) :
    (fromLeBytes bs ^^^ m).toNat = Lanes.value (bs.map (· ^^^ c)) := by
  rw [UInt64.toNat_xor, toNat_fromLeBytes eight, spread, ← eight, Lanes.value_xor]

theorem or_and_eq_zero {x y m : UInt64} (none : (x ||| y) &&& m = 0) :
    x &&& m = 0 ∧ y &&& m = 0 := by
  have bits : x.toNat &&& m.toNat ||| y.toNat &&& m.toNat = 0 := by
    rw [← Nat.and_or_distrib_right, ← UInt64.toNat_or, ← UInt64.toNat_and, none]
    rfl
  have both := Nat.or_eq_zero_iff.mp bits
  refine ⟨UInt64.toNat_inj.mp ?_, UInt64.toNat_inj.mp ?_⟩
  · rw [UInt64.toNat_and, both.1]
    rfl
  · rw [UInt64.toNat_and, both.2]
    rfl

/-- A word in which the test finds nothing has no special byte. -/
theorem clean_of_word (eight : bs.length = 8) (clean : wordHasSpecial (fromLeBytes bs) = false) :
    ∀ b ∈ bs, isSpecial b = false := by
  intro b b_mem
  have borrows : ∀ {m : UInt64}, m.toNat = Lanes.value (List.replicate 8 b) →
      (((fromLeBytes bs ^^^ m) - L) &&& ~~~(fromLeBytes bs ^^^ m)) &&& H ≠ 0 := fun spread =>
    borrow_of_mem eight b_mem (toNat_laid eight spread)
  rw [wordHasSpecial, decide_eq_false_iff_not, not_not] at clean
  obtain ⟨abc, d⟩ := or_and_eq_zero clean
  obtain ⟨ab, c⟩ := or_and_eq_zero abc
  obtain ⟨a, b⟩ := or_and_eq_zero ab
  refine Bool.eq_false_iff.mpr fun special => ?_
  rcases isSpecial_iff.mp special with rfl | rfl | rfl | rfl
  · exact borrows (by decide) a
  · exact borrows (by decide) b
  · exact borrows (by decide) c
  · exact borrows (by decide) d

/-- What the word scan goes over is clean. -/
theorem skipWords_clean (i : Nat) (from_ : i ≤ j) (before : j < skipWords v i) :
    ∀ b ∈ v[j]?, isSpecial b = false := by
  fun_induction skipWords v i with
  | case1 i eight found => omega
  | case2 i eight clean ih =>
      by_cases here : j < i + 8
      · intro b b_at
        have length : ((v.drop i).take 8).length = 8 := by
          rw [List.length_take, List.length_drop]
          omega
        refine clean_of_word length (Bool.eq_false_iff.mpr clean) b ?_
        refine List.mem_iff_getElem?.mpr ⟨j - i, ?_⟩
        rw [List.getElem?_take_of_lt (by omega), List.getElem?_drop, Nat.add_sub_cancel' from_]
        exact b_at
      · exact ih (by omega) before
  | case3 i short => omega

theorem skipBytes_clean (i : Nat) (from_ : i ≤ j) (before : j < skipBytes v i) :
    ∀ b ∈ v[j]?, isSpecial b = false := by
  fun_induction skipBytes v i with
  | case1 i b here special => omega
  | case2 i b here clean ih =>
      rcases Nat.eq_or_lt_of_le from_ with rfl | later
      · intro c c_at
        have same : b = c := Option.some.inj (here.symm.trans c_at)
        exact same ▸ Bool.eq_false_iff.mpr clean
      · exact ih later before
  | case3 i past => omega

/-- The byte scan stops at a special byte or at the end. -/
theorem skipBytes_stops (v : Bytes) (i : Nat) : ∀ b ∈ v[skipBytes v i]?, isSpecial b = true := by
  fun_induction skipBytes v i with
  | case1 i b here special =>
      intro c c_at
      have same : b = c := Option.some.inj (here.symm.trans c_at)
      exact same ▸ special
  | case2 i b here clean ih => exact ih
  | case3 i past =>
      intro c c_at
      exact absurd (past.symm.trans c_at) (by simp)

/-- Where one clean run ends. -/
theorem run_clean (j : Nat) (from_ : i ≤ j) (before : j < skipBytes v (skipWords v i)) :
    ∀ b ∈ v[j]?, isSpecial b = false := by
  rcases Nat.lt_or_ge j (skipWords v i) with words | bytes
  · exact skipWords_clean i from_ words
  · exact skipBytes_clean _ bytes before

theorem flatMap_clean (clean : ∀ b ∈ v, isSpecial b = false) : v.flatMap escapeByte = v := by
  have single : v.flatMap escapeByte = v.flatMap fun b => [b] :=
    List.flatMap_congr fun b b_mem => by rw [escapeByte, clean b b_mem]; rfl
  rw [single, List.flatMap_singleton']

/-- A run from `start` on and what follows it, escaped byte by byte. -/
theorem flatMap_drop (v : Bytes) (start : Nat) :
    (v.drop start).flatMap escapeByte =
      (v.drop start).take (skipBytes v (skipWords v start) - start) ++
        (v.drop (skipBytes v (skipWords v start))).flatMap escapeByte := by
  have ahead : start ≤ skipBytes v (skipWords v start) :=
    Nat.le_trans (le_skipWords v start) (le_skipBytes v _)
  have clean : ∀ b ∈ (v.drop start).take (skipBytes v (skipWords v start) - start),
      isSpecial b = false := by
    intro b b_mem
    obtain ⟨k, b_at⟩ := List.mem_iff_getElem?.mp b_mem
    rw [List.getElem?_take] at b_at
    split at b_at
    case isTrue within =>
      rw [List.getElem?_drop] at b_at
      exact run_clean (start + k) (Nat.le_add_right start k) (by omega) b b_at
    case isFalse past => cases b_at
  calc (v.drop start).flatMap escapeByte
      = ((v.drop start).take (skipBytes v (skipWords v start) - start) ++
          (v.drop start).drop (skipBytes v (skipWords v start) - start)).flatMap escapeByte := by
        rw [List.take_append_drop]
    _ = _ := by
        rw [List.flatMap_append, flatMap_clean clean, List.drop_drop, Nat.add_sub_cancel' ahead]

theorem copyEscapeFrom_eq (v : Bytes) (start : Nat) (out : Bytes) :
    copyEscapeFrom v start out = out ++ (v.drop start).flatMap escapeByte := by
  fun_induction copyEscapeFrom v start out with
  | case1 start out within i out' b here ih =>
      have special : isSpecial b = true := skipBytes_stops v _ b here
      obtain ⟨bound, same⟩ := List.getElem?_eq_some_iff.mp here
      rw [ih, flatMap_drop v start, List.drop_eq_getElem_cons bound, List.flatMap_cons, same,
        escapeByte, special, if_pos rfl, ← List.append_assoc, List.append_assoc, List.append_assoc]
  | case2 start out within i out' past =>
      rw [flatMap_drop v start, List.drop_eq_nil_of_le (List.getElem?_eq_none_iff.mp past),
        List.flatMap_nil, List.append_nil]
  | case3 start out past =>
      rw [List.drop_eq_nil_of_le (Nat.le_of_not_lt past), List.flatMap_nil, List.append_nil]

/-- The scan writes what escaping byte by byte writes. -/
theorem copyEscape_eq (v out : Bytes) : copyEscape v out = out ++ v.flatMap escapeByte := by
  rw [copyEscape, copyEscapeFrom_eq, List.drop_zero]

end escape

/-! ## Reading escaped text back -/

section unescape

variable {hexer : Hex} {v : Bytes} {b : UInt8}

theorem unescapeFrom_escapeByte (b : UInt8) (rest : Bytes) :
    unescapeFrom (escapeByte b ++ rest) = b :: unescapeFrom rest := by
  by_cases special : isSpecial b = true
  · rw [escapeByte, if_pos special]
    rcases isSpecial_iff.mp special with rfl | rfl | rfl | rfl <;> rfl
  · have other : b ≠ backslash := fun same => special (isSpecial_iff.mpr (.inl same))
    rw [escapeByte, if_neg special, List.singleton_append, unescapeFrom.eq_def]
    exact if_pos other

theorem unescapeFrom_escaped (v rest : Bytes) :
    unescapeFrom (v.flatMap escapeByte ++ rest) = v ++ unescapeFrom rest := by
  induction v with
  | nil => rfl
  | cons b v ih =>
      rw [List.flatMap_cons, List.append_assoc, unescapeFrom_escapeByte, ih, List.cons_append]

theorem unescapeFrom_flatMap (v : Bytes) : unescapeFrom (v.flatMap escapeByte) = v := by
  have whole := unescapeFrom_escaped v []
  rwa [List.append_nil, show unescapeFrom [] = [] from rfl, List.append_nil] at whole

/-- No escaped text is the spelling of NULL. -/
theorem escaped_ne_nullText (v : Bytes) : v.flatMap escapeByte ≠ nullText := by
  intro same
  have back : v = nullText := by
    have read : unescapeFrom nullText = nullText := rfl
    rw [← read, ← same, unescapeFrom_flatMap]
  rw [back] at same
  exact absurd same (by decide)

theorem tsvUnescape_escaped (v : Bytes) : tsvUnescape (v.flatMap escapeByte) = some v := by
  rw [tsvUnescape, if_neg (escaped_ne_nullText v), unescapeFrom_flatMap]

theorem passes_escapeByte {sep : UInt8} (apart : backslash ≠ sep) (special : isSpecial sep = true)
    (b : UInt8) : Separated.Passes backslash sep (escapeByte b) := by
  rw [escapeByte]
  split
  case isTrue found =>
    rcases isSpecial_iff.mp found with rfl | rfl | rfl | rfl <;> exact .marked apart _
  case isFalse clean =>
    have unmarked : b ≠ backslash := fun same => clean (isSpecial_iff.mpr (.inl same))
    have inside : b ≠ sep := fun same => clean (same ▸ special)
    exact .plain unmarked inside

end unescape

/-! ## Rows -/

section rows

variable {hexer : Hex} {hex : List Bool} {cells : List Cell}

/-- The text a cell is sent as, before it is escaped. -/
def shipped (hexer : Hex) (raw : Bool) (t : Bytes) : Bytes :=
  if raw then [backslash, 0x78] ++ hexer.encode t else t

def field (hexer : Hex) (raw : Bool) : Cell → Bytes
  | .text t => (shipped hexer raw t).flatMap escapeByte
  | _ => nullText

/-- The fields of a row from column `i` on. -/
def fields (hexer : Hex) (hex : List Bool) : Nat → List Cell → List Bytes
  | _, [] => []
  | i, cell :: cells => field hexer (hex.getD i false) cell :: fields hexer hex (i + 1) cells

/-- A field read back: NULL, or text, decoded where the column is one of raw bytes. -/
def readCell (hexer : Hex) (raw : Bool) (text : Bytes) : Option Cell :=
  match tsvUnescape text with
  | none => some .null
  | some t =>
      if raw then
        match decodeBytea hexer t with
        | .ok v => some (.text v)
        | .error _ => none
      else some (.text t)

def readCells (hexer : Hex) (hex : List Bool) : Nat → List Bytes → Option (List Cell)
  | _, [] => some []
  | i, text :: texts =>
      (readCell hexer (hex.getD i false) text).bind fun cell =>
        (readCells hexer hex (i + 1) texts).map (cell :: ·)

/-- A line split at its tabs; a line of a table without columns has no field. -/
def readRow (hexer : Hex) (hex : List Bool) (width : Nat) (line : Bytes) : Option (List Cell) :=
  readCells hexer hex 0 (if width = 0 then [] else Separated.cut backslash tab false line)

/-- A text split at its newlines, each line a row and nothing behind the last one. -/
def readRows (hexer : Hex) (hex : List Bool) (width : Nat) (text : Bytes) :
    Option (List (List Cell)) :=
  let lines := Separated.cut backslash newline false text
  if lines.getLast? = some [] then lines.dropLast.mapM (readRow hexer hex width) else none

theorem copyByteaHex_eq (t out : Bytes) :
    copyByteaHex hexer t out = out ++ (shipped hexer true t).flatMap escapeByte := by
  have digits : (hexer.encode t).flatMap escapeByte = hexer.encode t :=
    flatMap_clean (hexer.plain t)
  rw [shipped, if_pos rfl, List.flatMap_append, digits, copyByteaHex, List.append_assoc]
  rfl

theorem copyEscape_shipped (t out : Bytes) :
    copyEscape t out = out ++ (shipped hexer false t).flatMap escapeByte := by
  rw [copyEscape_eq]
  rfl

theorem renderCells_cons {i : Nat} (cell : Cell) (here : cell ≠ .unchangedToast) (out : Bytes) :
    renderCells hexer hex i (cell :: cells) out =
      renderCells hexer hex (i + 1) cells
        ((if 0 < i then out ++ [tab] else out) ++ field hexer (hex.getD i false) cell) := by
  cases cell with
  | null => rfl
  | unchangedToast => exact absurd rfl here
  | text t =>
      rw [renderCells]
      by_cases raw : hex.getD i false = true
      · rw [if_pos raw, copyByteaHex_eq, field, raw]
      · rw [if_neg raw, copyEscape_shipped, field, Bool.eq_false_iff.mpr raw]

/-- Past the first column every field has a tab before it. -/
theorem renderCells_later {i : Nat} (shown : ∀ c ∈ cells, c ≠ .unchangedToast) (out : Bytes) :
    renderCells hexer hex (i + 1) cells out =
      .ok (out ++ (fields hexer hex (i + 1) cells).flatMap ([tab] ++ ·)) := by
  induction cells generalizing i out with
  | nil => rw [renderCells, fields, List.flatMap_nil, List.append_nil]
  | cons cell cells ih =>
      rw [renderCells_cons cell (shown cell List.mem_cons_self), if_pos (Nat.succ_pos i),
        ih fun c c_mem => shown c (List.mem_cons_of_mem _ c_mem), fields, List.flatMap_cons]
      simp only [List.append_assoc]

theorem intercalate_cons (sep text : Bytes) (texts : List Bytes) :
    sep.intercalate (text :: texts) = text ++ texts.flatMap (sep ++ ·) := by
  induction texts generalizing text with
  | nil => rw [List.intercalate_singleton, List.flatMap_nil, List.append_nil]
  | cons next texts ih =>
      rw [List.intercalate_cons_cons, ih, List.flatMap_cons, List.append_assoc, List.append_assoc]

theorem toCells_shown {row : Tuple} (shown : row.hasToast = false) :
    ∀ c ∈ row.toCells, c ≠ .unchangedToast := by
  intro c c_mem same
  have toast := row.hasToast_iff.mpr (same ▸ c_mem)
  rw [shown] at toast
  cases toast

/-- A row is its fields with a tab between two, and a newline. -/
theorem renderCopyRow_eq {row : Tuple} (shown : row.hasToast = false) (out : Bytes) :
    renderCopyRow hexer row hex out =
      .ok (out ++ ([tab].intercalate (fields hexer hex 0 row.toCells) ++ [newline])) := by
  have each := toCells_shown shown
  rw [renderCopyRow, Tuple.views_eq]
  cases cells : row.toCells with
  | nil => rfl
  | cons cell rest =>
      rw [cells] at each
      rw [renderCells_cons cell (each cell List.mem_cons_self), if_neg (Nat.lt_irrefl 0),
        renderCells_later fun c c_mem => each c (List.mem_cons_of_mem _ c_mem), fields,
        intercalate_cons, Except.map, List.append_assoc, List.append_assoc, List.append_assoc]

def line (hexer : Hex) (hex : List Bool) (row : Tuple) : Bytes :=
  [tab].intercalate (fields hexer hex 0 row.toCells)

theorem renderRows_eq {rows : List Tuple} (shown : ∀ row ∈ rows, row.hasToast = false)
    (out : Bytes) :
    renderRows hexer hex rows out =
      .ok (out ++ (rows.map (line hexer hex)).flatMap (· ++ [newline])) := by
  induction rows generalizing out with
  | nil => rw [renderRows, List.map_nil, List.flatMap_nil, List.append_nil]
  | cons row rows ih =>
      rw [renderRows, renderCopyRow_eq (shown row List.mem_cons_self), Except.bind,
        ih fun r r_mem => shown r (List.mem_cons_of_mem _ r_mem), List.map_cons,
        List.flatMap_cons, List.append_assoc]
      rfl

theorem passes_field {sep : UInt8} (apart : backslash ≠ sep) (special : isSpecial sep = true)
    (raw : Bool) (cell : Cell) : Separated.Passes backslash sep (field hexer raw cell) := by
  have null : Separated.Passes backslash sep nullText := .marked apart 0x4E
  cases cell with
  | null => exact null
  | unchangedToast => exact null
  | text t => exact .flatMap fun b _ => passes_escapeByte apart special b

theorem passes_fields (hexer : Hex) (hex : List Bool) {sep : UInt8} (apart : backslash ≠ sep)
    (special : isSpecial sep = true) (i : Nat) (cells : List Cell) :
    ∀ text ∈ fields hexer hex i cells, Separated.Passes backslash sep text := by
  induction cells generalizing i with
  | nil => intro text mem; cases mem
  | cons cell cells ih =>
      intro text mem
      rcases List.mem_cons.mp mem with rfl | mem
      · exact passes_field apart special _ cell
      · exact ih (i + 1) text mem

/-- No newline of a line is a line's end. -/
theorem passes_line (row : Tuple) :
    Separated.Passes backslash newline (line hexer hex row) := by
  have each := passes_fields hexer hex (show backslash ≠ newline by decide) (by decide) 0
    row.toCells
  rw [line]
  cases texts : fields hexer hex 0 row.toCells with
  | nil => exact .nil
  | cons text rest =>
      rw [texts] at each
      rw [intercalate_cons]
      refine (each text List.mem_cons_self).append (.flatMap fun t t_mem => ?_)
      exact (Separated.Passes.plain (show tab ≠ backslash by decide) (by decide)).append
        (each t (List.mem_cons_of_mem _ t_mem))

theorem readCell_field (raw : Bool) {cell : Cell} (here : cell ≠ .unchangedToast) :
    readCell hexer raw (field hexer raw cell) = some cell := by
  cases cell with
  | null => rfl
  | unchangedToast => exact absurd rfl here
  | text t =>
      rw [readCell, field, tsvUnescape_escaped]
      cases raw with
      | false => rfl
      | true =>
          have back : decodeBytea hexer (shipped hexer true t) = .ok t := by
            show (match hexer.decode (hexer.encode t) with
              | some v => Except.ok v
              | none => .error (Error.transfer "log_based: bad bytea hex from WAL")) = .ok t
            rw [hexer.decode_encode]
          simp only [if_true, back]

theorem readCells_fields (hexer : Hex) (hex : List Bool) (i : Nat) (shown : ∀ c ∈ cells,
    c ≠ .unchangedToast) :
    readCells hexer hex i (fields hexer hex i cells) = some cells := by
  induction cells generalizing i with
  | nil => rfl
  | cons cell cells ih =>
      rw [fields, readCells, readCell_field _ (shown cell List.mem_cons_self), Option.bind_some,
        ih (i + 1) fun c c_mem => shown c (List.mem_cons_of_mem _ c_mem)]
      rfl

theorem readRow_line (hexer : Hex) (hex : List Bool) {row : Tuple} (shown : row.hasToast = false) :
    readRow hexer hex row.len (line hexer hex row) = some row.toCells := by
  have read := readCells_fields hexer hex 0 (toCells_shown shown)
  rw [readRow, line, ← Tuple.length_toCells]
  cases cells : row.toCells with
  | nil => rfl
  | cons cell rest =>
      have pass := passes_fields hexer hex (show backslash ≠ tab by decide) (by decide) 0
        (cell :: rest)
      have apart : Separated.cut backslash tab false
          ([tab].intercalate (fields hexer hex 0 (cell :: rest))) =
          fields hexer hex 0 (cell :: rest) :=
        Separated.cut_between (List.cons_ne_nil _ _) pass
      rw [cells] at read
      rw [List.length_cons, if_neg (Nat.succ_ne_zero _), apart, read]

theorem readRows_lines {rows : List Tuple} {width : Nat}
    (wide : ∀ row ∈ rows, row.len = width) (shown : ∀ row ∈ rows, row.hasToast = false) :
    readRows hexer hex width ((rows.map (line hexer hex)).flatMap (· ++ [newline])) =
      some (rows.map Tuple.toCells) := by
  have pass : ∀ l ∈ rows.map (line hexer hex), Separated.Passes backslash newline l := by
    intro l l_mem
    obtain ⟨row, -, rfl⟩ := List.mem_map.mp l_mem
    exact passes_line row
  have each : (rows.map (line hexer hex)).mapM (readRow hexer hex width) =
      some (rows.map Tuple.toCells) := by
    clear pass
    induction rows with
    | nil => rfl
    | cons row rows ih =>
        have first := readRow_line hexer hex (shown row List.mem_cons_self)
        rw [wide row List.mem_cons_self] at first
        rw [List.map_cons, List.map_cons, List.mapM_cons, first,
          ih (fun r r_mem => wide r (List.mem_cons_of_mem _ r_mem))
            fun r r_mem => shown r (List.mem_cons_of_mem _ r_mem)]
        rfl
  rw [readRows, Separated.cut_behind pass]
  simp only [List.getLast?_concat, List.dropLast_concat, if_true, each]

end rows

/-- The word scan writes what escaping byte by byte writes, unescaping gives the text back, and
rows rendered one after another read back as the same rows of the same cells. -/
theorem framing_loses_nothing (hexer : Hex) :
    (∀ v out : Bytes, copyEscape v out = out ++ v.flatMap escapeByte) ∧
    (∀ v : Bytes, tsvUnescape (copyEscape v []) = some v) ∧
    ∀ (hex : List Bool) (width : Nat) (rows : List Tuple),
      (∀ row ∈ rows, row.len = width ∧ row.hasToast = false) →
      ∃ text, renderRows hexer hex rows [] = .ok text ∧
        readRows hexer hex width text = some (rows.map Tuple.toCells) := by
  refine ⟨copyEscape_eq, fun v => ?_, fun hex width rows fit => ?_⟩
  · rw [copyEscape_eq, List.nil_append, tsvUnescape_escaped]
  · have shown : ∀ row ∈ rows, row.hasToast = false := fun row mem => (fit row mem).2
    refine ⟨_, renderRows_eq shown [], ?_⟩
    rw [List.nil_append, readRows_lines (fun row mem => (fit row mem).1) shown]

/-! ## Lower-case digits -/

namespace LowerHex

def digit (n : Nat) : UInt8 := UInt8.ofNat (if n < 10 then 48 + n else 87 + n)

def digitValue (b : UInt8) : Option Nat :=
  if 48 ≤ b ∧ b ≤ 57 then some (b.toNat - 48)
  else if 97 ≤ b ∧ b ≤ 102 then some (b.toNat - 87)
  else if 65 ≤ b ∧ b ≤ 70 then some (b.toNat - 55)
  else none

def encode (v : Bytes) : Bytes := v.flatMap fun b => [digit (b.toNat / 16), digit (b.toNat % 16)]

def decode : Bytes → Option Bytes
  | [] => some []
  | a :: b :: rest =>
      (digitValue a).bind fun high =>
        (digitValue b).bind fun low => (decode rest).map (UInt8.ofNat (16 * high + low) :: ·)
  | [_] => none

theorem digitValue_digit : ∀ n < 16, digitValue (digit n) = some n := by decide

theorem digit_plain : ∀ n < 16, isSpecial (digit n) = false := by decide

theorem decode_encode (v : Bytes) : decode (encode v) = some v := by
  induction v with
  | nil => rfl
  | cons b v ih =>
      have byte : b.toNat < 256 := b.toNat_lt
      have back : UInt8.ofNat (16 * (b.toNat / 16) + b.toNat % 16) = b := by
        rw [Nat.div_add_mod, UInt8.ofNat_toNat]
      show decode (digit (b.toNat / 16) :: digit (b.toNat % 16) :: encode v) = _
      rw [decode, digitValue_digit _ (by omega), digitValue_digit _ (by omega), ih]
      simp only [Option.bind_some, Option.map_some, back]

theorem encode_plain (v : Bytes) : ∀ b ∈ encode v, isSpecial b = false := by
  intro b b_mem
  obtain ⟨c, -, b_mem⟩ := List.mem_flatMap.mp b_mem
  have byte : c.toNat < 256 := c.toNat_lt
  rcases List.mem_cons.mp b_mem with rfl | b_mem
  · exact digit_plain _ (by omega)
  · rw [List.mem_singleton.mp b_mem]
    exact digit_plain _ (by omega)

/-- Two lower-case digits a byte, and either case read. -/
def lower : Hex := ⟨encode, decode, decode_encode, encode_plain⟩

/-- NULL, the two bytes of its spelling as text, an empty text, and tabs, newlines and
backslashes beside each other; the second column is one of raw bytes. -/
def sample : List Tuple :=
  [Tuple.fromCells [.null, .text [0x48, 0x09]],
    Tuple.fromCells [.text [0x5C, 0x4E], .null],
    Tuple.fromCells [.text [], .text []],
    Tuple.fromCells [.text [0x09, 0x0A, 0x5C, 0x0D, 0x74], .text [0xFF]]]

end LowerHex

theorem framing_loses_nothing_sample :
    ∃ text, renderRows LowerHex.lower [false, true] LowerHex.sample [] = .ok text ∧
      readRows LowerHex.lower [false, true] 2 text = some (LowerHex.sample.map Tuple.toCells) :=
  (framing_loses_nothing LowerHex.lower).2.2 [false, true] 2 LowerHex.sample (by decide)

end Apitap.RowText
