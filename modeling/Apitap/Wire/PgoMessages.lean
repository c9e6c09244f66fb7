import Apitap.Wire.PgoDecode
import Mathlib.Data.List.Forall2

/-!
# What a server sends, decoded

The messages of the protocol with all their fields, the bytes each is sent as, and what its
decoding should be: the same message, a binary cell in it kept or rendered as text. Decoding
gives just that, never panics while a row's text stays below 4 GiB, and refuses a message
that is cut short in the part it reads.
-/

namespace Apitap.Pgo

open Foundation Scan
open Copy (be fromBe fromBe_be length_be)

/-! ## Rows on the wire -/

/-- A cell as it is sent. -/
inductive WireCell where
  | null
  | unchanged
  | text (t : Bytes)
  | binary (raw : Bytes)
deriving DecidableEq

namespace WireCell

def bytes : WireCell → Bytes
  | .null => [110]
  | .unchanged => [117]
  | .text t => [116] ++ (be 4 t.length ++ t)
  | .binary raw => [98] ++ (be 4 raw.length ++ raw)

def size : WireCell → Nat
  | .text t => t.length
  | .binary raw => raw.length
  | _ => 0

def isBinary : WireCell → Bool
  | .binary _ => true
  | _ => false

/-- The cell with its bytes as they are. -/
def raw : WireCell → Cell
  | .null => .null
  | .unchanged => .unchangedToast
  | .text t => .text t
  | .binary t => .text t

/-- The cell with a binary value rendered. -/
def shown (render : Render) (oid : UInt32) : WireCell → Except (Stop Error) Cell
  | .binary t => (render oid.toNat t).map .text
  | c => .ok c.raw

end WireCell

/-- A row: fewer columns than two bytes count, each value shorter than four bytes count. -/
structure WireTuple where
  cells : List WireCell
  few : cells.length < 2 ^ 16
  fit : ∀ c ∈ cells, c.size < 2 ^ 32

def WireTuple.bytes (t : WireTuple) : Bytes := be 2 t.cells.length ++ t.cells.flatMap WireCell.bytes

/-- A row's cells, each rendered by its column's type. -/
def showCells (render : Render) : List UInt32 → List WireCell → Except (Stop Error) (List Cell)
  | oid :: oids, c :: cs =>
      (c.shown render oid).bind fun cell => (showCells render oids cs).map (cell :: ·)
  | _, _ => .ok []

/-- The bytes of a row's text. -/
def textSize (render : Render) : List UInt32 → List WireCell → Nat
  | oid :: oids, c :: cs =>
      (match c.shown render oid with
        | .ok (.text t) => t.length
        | _ => 0) + textSize render oids cs
  | _, _ => 0

/-- What a row decodes to. -/
def WireTuple.shown (render : Render) (oids : Option (List UInt32)) (keep : Bool) (t : WireTuple) :
    Except (Stop Error) (List Cell) :=
  if keep ∨ ∀ c ∈ t.cells, c.isBinary = false then .ok (t.cells.map WireCell.raw)
  else
    match oids with
    | none => .error neverSeen
    | some oids =>
        if oids.length ≠ t.cells.length then .error (declared t.cells.length oids.length)
        else showCells render oids t.cells

/-- A row's text comes to less than 4 GiB, or is not made. -/
def WireTuple.Roomy (render : Render) (oids : Option (List UInt32)) (keep : Bool)
    (t : WireTuple) : Prop :=
  keep = true ∨ ∀ os,
    oids = some os → os.length = t.cells.length → textSize render os t.cells < 2 ^ 32

/-! ## Plain values -/

/-- Texts a 32-bit range can address. -/
def Short (src : Bytes) : Prop := src.length < 2 ^ 32

def Calm (e : Stop Error) : Prop := e ≠ .panic

theorem calm_refused (what : String) : Calm (refused what) := fun is => nomatch is

theorem calm_mistaken (what wanted : String) (kind : UInt8) :
    Calm (mistaken what wanted kind) := fun is => nomatch is

variable {S : Bytes → Prop}

theorem gives_u8 (b : UInt8) : Gives S Calm u8 [b] b where
  whole src pos _ stands := by
    obtain ⟨front, rest, rfl, rfl⟩ := stands
    refine ⟨b, ?_, rfl⟩
    rw [u8, List.getElem?_append_right (Nat.le_refl _), Nat.sub_self]
    rfl
  cut src pos _ ends := by
    have past := ends.length_lt
    rw [List.length_singleton] at past
    refine ⟨short, ?_, calm_refused _⟩
    rw [u8, List.getElem?_eq_none (by omega)]

theorem gives_take {w : Bytes} {n : Nat} (len : w.length = n) : Gives S Calm (take n) w w :=
  spells_take (calm_refused _) len

theorem gives_u16 {n : Nat} (fits : n < 2 ^ 16) : Gives S Calm u16 (be 2 n) n := by
  have read := (gives_take (S := S) (length_be (w := 2) (n := n))).map fromBe
  rwa [fromBe_be fits] at read

theorem gives_u32 (x : UInt32) : Gives S Calm u32 (be 4 x.toNat) x := by
  have read := (gives_take (S := S) (length_be (w := 4) (n := x.toNat))).map
    fun bs => UInt32.ofNat (fromBe bs)
  rwa [fromBe_be x.toNat_lt, UInt32.ofNat_toNat] at read

theorem gives_i32 (x : Int32) : Gives S Calm i32 (be 4 x.toUInt32.toNat) x := by
  have read := (gives_take (S := S) (length_be (w := 4) (n := x.toUInt32.toNat))).map
    fun bs => (⟨UInt32.ofNat (fromBe bs)⟩ : Int32)
  rwa [fromBe_be x.toUInt32.toNat_lt, UInt32.ofNat_toNat] at read

theorem gives_u64 (x : UInt64) : Gives S Calm u64 (be 8 x.toNat) x := by
  have read := (gives_take (S := S) (length_be (w := 8) (n := x.toNat))).map
    fun bs => UInt64.ofNat (fromBe bs)
  rwa [fromBe_be x.toNat_lt, UInt64.ofNat_toNat] at read

theorem gives_i64 (x : Int64) : Gives S Calm i64 (be 8 x.toUInt64.toNat) x := by
  have read := (gives_take (S := S) (length_be (w := 8) (n := x.toUInt64.toNat))).map
    fun bs => (⟨UInt64.ofNat (fromBe bs)⟩ : Int64)
  rwa [fromBe_be x.toUInt64.toNat_lt, UInt64.ofNat_toNat] at read

/-- A name has no zero byte. -/
abbrev Ident := {s : String // (0 : UInt8) ∉ s.toByteArray.data.toList}

def Ident.bytes (s : Ident) : Bytes := s.val.toByteArray.data.toList ++ [0]

theorem takeWhile_name {name rest : Bytes} (clean : (0 : UInt8) ∉ name) :
    (name ++ 0 :: rest).takeWhile (· ≠ 0) = name := by
  induction name with
  | nil => rfl
  | cons b name ih =>
      have here : b ≠ 0 := fun same => clean (same ▸ List.mem_cons_self)
      rw [List.cons_append, List.takeWhile_cons_of_pos (by simpa using here),
        ih fun mem => clean (List.mem_cons_of_mem _ mem)]

theorem takeWhile_clean {name : Bytes} (clean : (0 : UInt8) ∉ name) :
    name.takeWhile (· ≠ 0) = name := by
  rw [List.takeWhile_eq_self_iff]
  intro b b_mem
  have here : b ≠ 0 := fun same => clean (same ▸ b_mem)
  simpa using here

theorem fromUTF8_bytes (s : String) : String.fromUTF8? ⟨s.toByteArray.data.toList.toArray⟩ =
    some s := by
  have same : (⟨s.toByteArray.data.toList.toArray⟩ : ByteArray) = s.toByteArray := rfl
  rw [same, String.fromUTF8?, dif_pos s.isValidUTF8]
  rfl

theorem gives_cstr (s : Ident) : Gives S Calm cstr s.bytes s.val where
  whole src pos _ stands := by
    obtain ⟨front, rest, rfl, rfl⟩ := stands
    refine ⟨s.val, ?_, rfl⟩
    have reach : front.length ≤ (front ++ (s.bytes ++ rest)).length := by
      rw [List.length_append]
      omega
    have name : (s.bytes ++ rest).takeWhile (· ≠ 0) = s.val.toByteArray.data.toList := by
      rw [Ident.bytes, List.append_assoc]
      exact takeWhile_name s.property
    have ended : s.val.toByteArray.data.toList.length < (s.bytes ++ rest).length := by
      rw [Ident.bytes, List.length_append, List.length_append, List.length_singleton]
      omega
    simp only [cstr, if_pos reach, List.drop_left, name, if_pos ended, fromUTF8_bytes]
    rw [Ident.bytes, List.length_append, List.length_singleton]
  cut src pos _ ends := by
    obtain ⟨front, u, v, rfl, rfl, same, more⟩ := ends
    have reach : front.length ≤ (front ++ u).length := by
      rw [List.length_append]
      omega
    have clean : (0 : UInt8) ∉ u := by
      intro mem
      have split : ∃ t, s.val.toByteArray.data.toList = u ++ t := by
        have parts := List.append_eq_append_iff.mp same
        rcases parts with h | h
        · obtain ⟨t, u_eq, v_eq⟩ := h
          cases t with
          | nil => exact ⟨[], by rw [u_eq]; simp⟩
          | cons b t =>
              have none := (List.cons.inj v_eq).2
              exact absurd (List.append_eq_nil_iff.mp none.symm).2 more
        · obtain ⟨t, name_eq, -⟩ := h
          exact ⟨t, name_eq⟩
      obtain ⟨t, name_eq⟩ := split
      exact s.property (name_eq ▸ List.mem_append_left t mem)
    refine ⟨refused "unterminated string", ?_, calm_refused _⟩
    simp only [cstr, if_pos reach, List.drop_left, takeWhile_clean clean, if_neg (Nat.lt_irrefl _)]

/-! ## Cells and rows -/

/-- A range of the source is a cell and stays inside. -/
structure Lies (src : Bytes) (r : CellR) (c : Cell) : Prop where
  view : r.view src = c
  within : ∀ o l, r = .text o l → o + l ≤ src.length

theorem spells_range {t : Bytes} (fits : t.length < 2 ^ 32) :
    Spells Short Calm range (be 4 t.length ++ t) (fun src r b => Lies src r (.text b)) (.ok t) := by
  have code : (UInt32.ofNat t.length).toNat = t.length := UInt32.toNat_ofNat_of_lt' fits
  have length := gives_u32 (S := Short) (UInt32.ofNat t.length)
  rw [code] at length
  refine length.andThen ?_
  have placed : Spells Short Calm (place short (UInt32.ofNat t.length).toNat) t _ (.ok t) :=
    spells_place (calm_refused _) code.symm
  refine placed.andThen_nil fun src start inside here => spells_ret fun s same => ?_
  subst same
  obtain ⟨is, stays⟩ := here
  have bound : s.length < 2 ^ 32 := inside
  have low : start % 2 ^ 32 = start := Nat.mod_eq_of_lt (by omega)
  refine ⟨?_, ?_⟩
  · rw [CellR.view, low, is]
  · intro o l same
    cases same
    rw [low]
    exact stays

namespace Lies

variable {src : Bytes} {r : CellR} {t : Bytes}

theorem null (lies : Lies src r .null) : r = .null := by
  have is := lies.view
  cases r with
  | null => rfl
  | text o l => cases is
  | unchangedToast => cases is

theorem unchanged (lies : Lies src r .unchangedToast) : r = .unchangedToast := by
  have is := lies.view
  cases r with
  | null => cases is
  | text o l => cases is
  | unchangedToast => rfl

theorem text (lies : Lies src r (.text t)) :
    ∃ o l, r = .text o l ∧ (src.drop o).take l = t ∧ o + l ≤ src.length := by
  have is := lies.view
  cases r with
  | null => cases is
  | text o l => exact ⟨o, l, rfl, Cell.text.inj is, lies.within o l rfl⟩
  | unchangedToast => cases is

end Lies

/-- A cell of a range, the cell it should be, and whether it is binary. -/
def SameCell (src : Bytes) (r : CellR × Bool) (c : Cell × Bool) : Prop :=
  Lies src r.1 c.1 ∧ r.2 = c.2

theorem spells_cell (c : WireCell) (fits : c.size < 2 ^ 32) :
    Spells Short Calm cell c.bytes SameCell (.ok (c.raw, c.isBinary)) := by
  rw [cell]
  cases c with
  | null =>
      apply Gives.andThen_nil (gives_u8 110)
      rw [if_pos rfl]
      exact spells_ret fun src _ => ⟨⟨rfl, fun o l same => by cases same⟩, rfl⟩
  | unchanged =>
      apply Gives.andThen_nil (gives_u8 117)
      rw [if_neg (by decide), if_pos rfl]
      exact spells_ret fun src _ => ⟨⟨rfl, fun o l same => by cases same⟩, rfl⟩
  | text t =>
      apply Gives.andThen (gives_u8 116)
      rw [if_neg (by decide), if_neg (by decide), if_pos rfl]
      exact (spells_range fits).andThen_nil fun src r _ lies =>
        spells_ret fun s same => ⟨same ▸ lies, rfl⟩
  | binary raw =>
      apply Gives.andThen (gives_u8 98)
      rw [if_neg (by decide), if_neg (by decide), if_neg (by decide), if_pos rfl]
      exact (spells_range fits).andThen_nil fun src r _ lies =>
        spells_ret fun s same => ⟨same ▸ lies, rfl⟩

/-- The columns of the binary cells, counted from `i`. -/
def binaryIdx : Nat → List WireCell → List Nat
  | _, [] => []
  | i, c :: cs => if c.isBinary then i :: binaryIdx (i + 1) cs else binaryIdx (i + 1) cs

def SameCells (src : Bytes) (r : List CellR × List Nat) (b : List Cell × List Nat) : Prop :=
  List.Forall₂ (Lies src) r.1 b.1 ∧ r.2 = b.2

theorem spells_cells (i : Nat) {cs : List WireCell} (fit : ∀ c ∈ cs, c.size < 2 ^ 32) :
    Spells Short Calm (cells i cs.length) (cs.flatMap WireCell.bytes) SameCells
      (.ok (cs.map WireCell.raw, binaryIdx i cs)) := by
  induction cs generalizing i with
  | nil => exact spells_ret fun src _ => ⟨.nil, rfl⟩
  | cons c cs ih =>
      have first := spells_cell c (fit c List.mem_cons_self)
      have rest := ih (i + 1) fun d d_mem => fit d (List.mem_cons_of_mem _ d_mem)
      rw [List.length_cons, cells, List.flatMap_cons]
      refine first.andThen_ok fun src r inside same => ?_
      have there := rest.mono (fun s (is : s = src) => is ▸ inside) fun _ _ _ _ rel => rel
      refine there.andThen_nil fun s rs is same_rest => spells_ret fun t t_is => ?_
      subst t_is is
      obtain ⟨lies, flag⟩ := same
      obtain ⟨lie, idx⟩ := same_rest
      refine ⟨.cons lies lie, ?_⟩
      show (if r.2 = true then i :: rs.2 else rs.2) = _
      rw [flag, idx]
      rfl

/-! ## A row in a frame of its own -/

section rebuild

variable {render : Render} {src frame : Bytes} {oids os : List UInt32} {i : Nat}
  {cs : List WireCell} {rs : List CellR}

theorem lt_of_mem_binaryIdx {j k : Nat} (before : j < i) (mem : k ∈ binaryIdx i cs) : j < k := by
  induction cs generalizing i with
  | nil => cases mem
  | cons c cs ih =>
      rw [binaryIdx] at mem
      split at mem
      · rcases List.mem_cons.mp mem with rfl | later
        · exact before
        · exact ih (by omega) later
      · exact ih (by omega) mem

theorem head_binaryIdx : (binaryIdx (i + 1) cs).head? ≠ some i := by
  intro same
  exact Nat.lt_irrefl i (lt_of_mem_binaryIdx (Nat.lt_succ_self i) (List.mem_of_head? same))

theorem slice_place {o : Nat} {t : Bytes} {l : Nat} (is : (src.drop o).take l = t)
    (within : o + l ≤ src.length) : slice src o (o + l) = some t := by
  rw [slice, if_pos ⟨Nat.le_add_right o l, within⟩, Nat.add_sub_cancel_left, is]

/-- The frame and the ranges a row is rebuilt into. -/
def framed (frame : Bytes) (shown : List Cell) : Bytes × List CellR :=
  (frame ++ Tuple.concat shown, Tuple.ranges frame.length shown)

/-- One value of a row laid into the frame. -/
theorem rebuild_text {o l : Nat} {t grown : Bytes} (inside : Short src)
    (is : (src.drop o).take l = t) (within : o + l ≤ src.length) {idx : List Nat}
    (laid : (if idx.head? = some i then
        (Stop.orPanic oids[i]?).bind fun oid => (render oid.toNat t).map (frame ++ ·)
      else .ok (frame ++ t)) = .ok grown)
    (longer : frame.length ≤ grown.length) (small : grown.length < 2 ^ 32) :
    rebuild render src oids i idx (.text o l :: rs) frame =
      (rebuild render src oids (i + 1) (if idx.head? = some i then idx.tail else idx) rs grown).map
        fun r => (r.1, .text frame.length (grown.length - frame.length) :: r.2) := by
  have bound : src.length < 2 ^ 32 := inside
  have fin : checkedNat 32 (o + l) = some (o + l) := checkedNat_of_lt (by omega)
  have start : frame.length % 2 ^ 32 = frame.length := Nat.mod_eq_of_lt (by omega)
  have stop : grown.length % 2 ^ 32 = grown.length := Nat.mod_eq_of_lt small
  simp only [rebuild, fin, slice_place is within, Stop.orPanic_some, Stop.ok_bind, laid, start,
    stop, if_pos longer]

theorem rebuild_eq (inside : Short src) (rest : oids.drop i = os) (len : os.length = cs.length)
    (lies : List.Forall₂ (Lies src) rs (cs.map WireCell.raw))
    (small : frame.length + textSize render os cs < 2 ^ 32) :
    rebuild render src oids i (binaryIdx i cs) rs frame =
      (showCells render os cs).map (framed frame) := by
  induction cs generalizing i os rs frame with
  | nil =>
      cases lies
      cases os with
      | nil => simp [rebuild, showCells, framed, Except.map, Tuple.concat, Tuple.ranges]
      | cons oid os => cases len
  | cons c cs ih =>
      obtain ⟨r, rs, lie, others, rfl⟩ := List.forall₂_cons_right_iff.mp lies
      cases os with
      | nil => cases len
      | cons oid os =>
          have here : oids[i]? = some oid := by
            rw [← List.head?_drop, rest]
            rfl
          have later : oids.drop (i + 1) = os := by
            rw [← List.tail_drop, rest]
            rfl
          have same : os.length = cs.length := Nat.succ.inj len
          -- A value that is shown as `t`, laid behind the frame.
          have laid : ∀ {o l : Nat} {raw t : Bytes} {idx : List Nat}, r = .text o l →
              (src.drop o).take l = raw → o + l ≤ src.length →
              (if idx.head? = some i then
                (Stop.orPanic oids[i]?).bind fun oid => (render oid.toNat raw).map (frame ++ ·)
              else .ok (frame ++ raw)) = .ok (frame ++ t) →
              (if idx.head? = some i then idx.tail else idx) = binaryIdx (i + 1) cs →
              frame.length + (t.length + textSize render os cs) < 2 ^ 32 →
              rebuild render src oids i idx (r :: rs) frame =
                (showCells render os cs).map fun shown => framed frame (.text t :: shown) := by
            rintro o l raw t idx rfl is within grows tail room
            have longer : frame.length ≤ (frame ++ t).length := by
              rw [List.length_append]
              exact Nat.le_add_right _ _
            have small : (frame ++ t).length + textSize render os cs < 2 ^ 32 := by
              rw [List.length_append]
              omega
            rw [rebuild_text inside is within grows longer (by omega), tail,
              ih later same others small, List.length_append, Nat.add_sub_cancel_left]
            cases showCells render os cs with
            | error e => rfl
            | ok shown =>
                simp only [Except.map, framed, Tuple.concat, Tuple.ranges, List.length_append,
                  List.append_assoc]
          cases c with
          | null =>
              have room : frame.length + textSize render os cs < 2 ^ 32 := by
                simpa [textSize, WireCell.shown, WireCell.raw] using small
              have more := ih later same others room
              have alone : WireCell.null.shown render oid = .ok .null := rfl
              cases Lies.null lie
              rw [binaryIdx, showCells, alone, Stop.ok_bind]
              show (rebuild render src oids (i + 1) (binaryIdx (i + 1) cs) rs frame).map _ = _
              rw [more]
              cases showCells render os cs <;> rfl
          | unchanged =>
              have room : frame.length + textSize render os cs < 2 ^ 32 := by
                simpa [textSize, WireCell.shown, WireCell.raw] using small
              have more := ih later same others room
              have alone : WireCell.unchanged.shown render oid = .ok .unchangedToast := rfl
              cases Lies.unchanged lie
              rw [binaryIdx, showCells, alone, Stop.ok_bind]
              show (rebuild render src oids (i + 1) (binaryIdx (i + 1) cs) rs frame).map _ = _
              rw [more]
              cases showCells render os cs <;> rfl
          | text t =>
              obtain ⟨o, l, is_text, is, within⟩ := Lies.text lie
              have room : frame.length + (t.length + textSize render os cs) < 2 ^ 32 := small
              have plain : binaryIdx i (.text t :: cs) = binaryIdx (i + 1) cs := rfl
              rw [plain, laid is_text is within (if_neg head_binaryIdx)
                (if_neg head_binaryIdx) room]
              cases shown : showCells render os cs <;>
                simp [showCells, WireCell.shown, WireCell.raw, shown, Except.map, Except.bind]
          | binary raw =>
              obtain ⟨o, l, is_text, is, within⟩ := Lies.text lie
              have marked : binaryIdx i (.binary raw :: cs) = i :: binaryIdx (i + 1) cs := rfl
              have asked : (i :: binaryIdx (i + 1) cs).head? = some i := rfl
              rw [marked]
              cases text : render oid.toNat raw with
              | error e =>
                  have fin : checkedNat 32 (o + l) = some (o + l) := checkedNat_of_lt (by
                    have bound : src.length < 2 ^ 32 := inside
                    omega)
                  subst is_text
                  simp [rebuild, fin, slice_place is within, here, text, showCells,
                    WireCell.shown, Except.map, Except.bind]
              | ok t =>
                  have room : frame.length + (t.length + textSize render os cs) < 2 ^ 32 := by
                    simpa [textSize, WireCell.shown, text, Except.map] using small
                  have grows : (if (i :: binaryIdx (i + 1) cs).head? = some i then
                      (Stop.orPanic oids[i]?).bind fun oid =>
                        (render oid.toNat raw).map (frame ++ ·)
                    else .ok (frame ++ raw)) = .ok (frame ++ t) := by
                    rw [if_pos asked, here, Stop.orPanic_some, Stop.ok_bind, text]
                    rfl
                  rw [laid is_text is within grows (if_pos asked) room]
                  cases shown : showCells render os cs <;>
                    simp [showCells, WireCell.shown, text, shown, Except.map, Except.bind]

end rebuild

/-! ## Rows -/

section rows

variable {render : Render} {oids : Option (List UInt32)} {keep : Bool}

theorem binaryIdx_eq_nil {i : Nat} {cs : List WireCell} :
    binaryIdx i cs = [] ↔ ∀ c ∈ cs, c.isBinary = false := by
  induction cs generalizing i with
  | nil => simp [binaryIdx]
  | cons c cs ih =>
      rw [binaryIdx]
      cases flag : c.isBinary with
      | true => simp [flag]
      | false => simp [flag, ih]

theorem toCells_of_lies {src : Bytes} {rs : List CellR} {cs : List Cell}
    (lies : List.Forall₂ (Lies src) rs cs) : Tuple.toCells ⟨src, rs⟩ = cs := by
  induction lies with
  | nil => rfl
  | cons lie others ih =>
      simp only [Tuple.toCells, List.map_cons, lie.view] at ih ⊢
      rw [ih]

theorem toCells_framed (shown : List Cell) :
    Tuple.toCells ⟨(framed [] shown).1, (framed [] shown).2⟩ = shown :=
  Tuple.toCells_fromCells shown

/-- A row, by what its cells show. -/
def SameRow (_ : Bytes) (t : Tuple) (cells : List Cell) : Prop := t.toCells = cells

/-- What is not a row of the relation is an error that is returned. -/
theorem showCells_calm (calm : ∀ oid raw, render oid raw ≠ .error .panic) {e : Stop Error} :
    ∀ {os : List UInt32} {cs : List WireCell}, showCells render os cs = .error e → Calm e
  | [], _, is => by simp [showCells] at is
  | _ :: _, [], is => by simp [showCells] at is
  | oid :: os, c :: cs, is => by
      rw [showCells] at is
      cases first : c.shown render oid with
      | ok cell =>
          rw [first, Stop.ok_bind] at is
          cases rest : showCells render os cs with
          | ok shown =>
              rw [rest] at is
              cases is
          | error e' =>
              rw [rest] at is
              cases is
              exact showCells_calm calm rest
      | error e' =>
          rw [first] at is
          cases is
          cases c with
          | binary raw =>
              intro panic
              subst panic
              have no := calm oid.toNat raw
              rw [WireCell.shown] at first
              cases text : render oid.toNat raw with
              | ok t =>
                  rw [text] at first
                  cases first
              | error e'' =>
                  rw [text] at first no
                  cases first
                  exact no rfl
          | null => cases first
          | unchanged => cases first
          | text t => cases first

theorem shown_calm (calm : ∀ oid raw, render oid raw ≠ .error .panic) {t : WireTuple}
    {e : Stop Error} (is : t.shown render oids keep = .error e) : Calm e := by
  rw [WireTuple.shown.eq_def] at is
  split at is
  · cases is
  · split at is
    · cases is
      exact calm_refused _
    · split at is
      · cases is
        exact calm_refused _
      · exact showCells_calm calm is

theorem spells_tuple (t : WireTuple) (roomy : t.Roomy render oids keep) :
    Spells Short Calm (tuple render oids keep) t.bytes SameRow (t.shown render oids keep) := by
  rw [tuple, WireTuple.bytes]
  refine (gives_u16 t.few).andThen ?_
  refine (spells_cells 0 t.fit).andThen_nil fun src r inside same => ?_
  have there : Spells (fun s => s = src) Calm (source : Read Bytes) [] _ (.ok ()) := spells_source
  refine there.andThen_nil fun s src' is same_src => ?_
  subst is same_src
  obtain ⟨lies, idx⟩ := same
  rw [idx, WireTuple.shown.eq_def]
  by_cases plain : keep = true ∨ ∀ c ∈ t.cells, c.isBinary = false
  · have stays : binaryIdx 0 t.cells = [] ∨ keep = true :=
      plain.symm.imp_left binaryIdx_eq_nil.mpr
    rw [if_pos stays, if_pos plain]
    exact spells_ret fun s' same => by
      subst same
      exact toCells_of_lies lies
  · have again : ¬ (binaryIdx 0 t.cells = [] ∨ keep = true) := fun stays =>
      plain (stays.symm.imp_right binaryIdx_eq_nil.mp)
    rw [if_neg again, if_neg plain]
    cases oids with
    | none => exact spells_fail
    | some os =>
        simp only
        by_cases len : os.length = t.cells.length
        · have room : textSize render os t.cells < 2 ^ 32 :=
            (roomy.resolve_left fun kept => plain (.inl kept)) os rfl len
          have laid : rebuild render src' os 0 (binaryIdx 0 t.cells) r.1 [] =
              (showCells render os t.cells).map (framed []) :=
            rebuild_eq inside rfl len lies (by simpa using room)
          rw [if_neg (not_not.mpr len), if_neg (not_not.mpr len), laid]
          cases shown : showCells render os t.cells with
          | error e => exact spells_fail
          | ok cells => exact spells_ret fun _ _ => toCells_framed cells
        · rw [if_pos len, if_pos len]
          exact spells_fail

end rows

/-! ## Messages -/

structure WireCol where
  key : Bool
  name : Ident
  typeOid : UInt32
  typeMod : Int32

def WireCol.bytes (c : WireCol) : Bytes :=
  [if c.key then 1 else 0] ++
    (c.name.bytes ++ (be 4 c.typeOid.toNat ++ be 4 c.typeMod.toUInt32.toNat))

def WireCol.shown (c : WireCol) : RelationCol := ⟨c.key, c.name.val, c.typeOid, c.typeMod⟩

structure WireRelation where
  relId : UInt32
  «namespace» : Ident
  name : Ident
  replicaIdentity : UInt8
  cols : List WireCol
  few : cols.length < 2 ^ 16

def WireRelation.bytes (r : WireRelation) : Bytes :=
  be 4 r.relId.toNat ++ (r.namespace.bytes ++ (r.name.bytes ++ ([r.replicaIdentity] ++
    (be 2 r.cols.length ++ r.cols.flatMap WireCol.bytes))))

def WireRelation.shown (r : WireRelation) : Relation :=
  ⟨r.relId, r.namespace.val, r.name.val, r.replicaIdentity, r.cols.map WireCol.shown⟩

/-- A message with all the fields a server sends. -/
inductive Sent where
  | «begin» (finalLsn : UInt64) (commitTsUs : Int64) (xid : UInt32)
  | commit (flags : UInt8) (commitLsn endLsn : UInt64) (commitTsUs : Int64)
  | origin (body : Bytes)
  | relation (r : WireRelation)
  | type (body : Bytes)
  | insert (relId : UInt32) (new : WireTuple)
  | update (relId : UInt32) (old : Option (OldImage WireTuple)) (new : WireTuple)
  | delete (relId : UInt32) (old : OldImage WireTuple)
  | truncate (relIds : List UInt32) (few : relIds.length < 2 ^ 32) (cascade restartIdentity : Bool)
  | streamStart (xid : UInt32) (firstSegment : UInt8)
  | streamStop
  | streamCommit (xid : UInt32) (flags : UInt8) (commitLsn endLsn : UInt64) (commitTsUs : Int64)
  | streamAbort (xid subXid : UInt32)

namespace Sent

def tag : Sent → UInt8
  | .begin .. => 66
  | .commit .. => 67
  | .origin _ => 79
  | .relation _ => 82
  | .type _ => 89
  | .insert .. => 73
  | .update .. => 85
  | .delete .. => 68
  | .truncate .. => 84
  | .streamStart .. => 83
  | .streamStop => 69
  | .streamCommit .. => 99
  | .streamAbort .. => 65

/-- What a decoder reads of a message behind its tag. -/
def body : Sent → Bytes
  | .begin finalLsn ts xid => be 8 finalLsn.toNat ++ (be 8 ts.toUInt64.toNat ++ be 4 xid.toNat)
  | .commit flags commitLsn endLsn ts =>
      [flags] ++ (be 8 commitLsn.toNat ++ (be 8 endLsn.toNat ++ be 8 ts.toUInt64.toNat))
  | .origin _ => []
  | .relation r => r.bytes
  | .type _ => []
  | .insert relId new => be 4 relId.toNat ++ ([78] ++ new.bytes)
  | .update relId none new => be 4 relId.toNat ++ ([78] ++ new.bytes)
  | .update relId (some old) new => be 4 relId.toNat ++
      ([if old.full then 79 else 75] ++ (old.tuple.bytes ++ ([78] ++ new.bytes)))
  | .delete relId old => be 4 relId.toNat ++ ([if old.full then 79 else 75] ++ old.tuple.bytes)
  | .truncate relIds _ cascade restart => be 4 relIds.length ++
      ([(if cascade then 1 else 0) + (if restart then 2 else 0)] ++
        relIds.flatMap fun id => be 4 id.toNat)
  | .streamStart xid first => be 4 xid.toNat ++ [first]
  | .streamStop => []
  | .streamCommit xid flags commitLsn endLsn _ =>
      be 4 xid.toNat ++ ([flags] ++ (be 8 commitLsn.toNat ++ be 8 endLsn.toNat))
  | .streamAbort xid subXid => be 4 xid.toNat ++ be 4 subXid.toNat

/-- What it leaves unread at the end. -/
def unread : Sent → Bytes
  | .origin body => body
  | .type body => body
  | .streamCommit _ _ _ _ ts => be 8 ts.toUInt64.toNat
  | _ => []

/-- The number of the (sub)transaction in front of the body, inside a stream. -/
def xidBytes (m : Sent) (stream : Option UInt32) : Bytes :=
  match stream with
  | some xid => if carriesXid m.tag then be 4 xid.toNat else []
  | none => []

/-- The bytes of a message up to the last one that is read. -/
def read (m : Sent) (stream : Option UInt32) : Bytes := [m.tag] ++ (m.xidBytes stream ++ m.body)

/-- The bytes of a message, outside a stream or inside one. -/
def encode (m : Sent) (stream : Option UInt32) : Bytes := m.read stream ++ m.unread

/-- The (sub)transaction a decoder should report. -/
def changeXid (m : Sent) (stream : Option UInt32) : Option UInt32 :=
  if carriesXid m.tag then stream else none

/-- What a message should decode to. -/
def shown (render : Render) (relOids : Oids) (keep : Bool) :
    Sent → Except (Stop Error) (PgoMessage (List Cell))
  | .begin finalLsn ts xid => .ok (.begin finalLsn ts xid)
  | .commit _ commitLsn endLsn ts => .ok (.commit commitLsn endLsn ts)
  | .origin _ => .ok .origin
  | .relation r => .ok (.relation r.shown)
  | .type _ => .ok .type
  | .insert relId new => (new.shown render (relOids relId) keep).map (.insert relId)
  | .update relId none new => (new.shown render (relOids relId) keep).map (.update relId none)
  | .update relId (some old) new =>
      (old.tuple.shown render (relOids relId) keep).bind fun cells =>
        (new.shown render (relOids relId) keep).map (.update relId (some ⟨old.full, cells⟩))
  | .delete relId old =>
      (old.tuple.shown render (relOids relId) keep).map fun cells =>
        .delete relId ⟨old.full, cells⟩
  | .truncate relIds _ cascade restart => .ok (.truncate relIds cascade restart)
  | .streamStart xid _ => .ok (.streamStart xid)
  | .streamStop => .ok .streamStop
  | .streamCommit xid _ _ endLsn _ => .ok (.streamCommit xid endLsn)
  | .streamAbort xid subXid => .ok (.streamAbort xid subXid)

/-- A message's rows, each with its relation. -/
def rows : Sent → List (UInt32 × WireTuple)
  | .insert relId new => [(relId, new)]
  | .update relId old new => (old.toList.map fun o => (relId, o.tuple)) ++ [(relId, new)]
  | .delete relId old => [(relId, old.tuple)]
  | _ => []

end Sent

/-- A message, by what its rows show. -/
def SameMessage (_ : Bytes) (m : PgoMessage Tuple) (shown : PgoMessage (List Cell)) : Prop :=
  m.map Tuple.toCells = shown

section messages

variable {render : Render} {relOids : Oids} {keep : Bool}

theorem gives_relationCol (c : WireCol) : Gives S Calm relationCol c.bytes c.shown := by
  have flag : ∀ b : Bool, decide ((if b then (1 : UInt8) else 0) = 1) = b := by decide
  rw [relationCol, WireCol.bytes]
  refine (gives_u8 _).andThen ((gives_cstr c.name).andThen ((gives_u32 c.typeOid).andThen ?_))
  have last := (gives_i32 (S := S) c.typeMod).map fun typeMod =>
    (⟨(if c.key then (1 : UInt8) else 0) = 1, c.name.val, c.typeOid, typeMod⟩ : RelationCol)
  simp only [flag] at last ⊢
  exact last

theorem gives_relation (r : WireRelation) : Gives S Calm relation r.bytes r.shown := by
  rw [relation, WireRelation.bytes]
  refine (gives_u32 r.relId).andThen ((gives_cstr r.namespace).andThen
    ((gives_cstr r.name).andThen ((gives_u8 r.replicaIdentity).andThen
      ((gives_u16 r.few).andThen ?_))))
  exact (gives_times fun c _ => gives_relationCol c).map fun cols =>
    (⟨r.relId, r.namespace.val, r.name.val, r.replicaIdentity, cols⟩ : Relation)

/-- A row, and what the message is made of. -/
theorem spells_row {oids : Option (List UInt32)} {t : WireTuple} (roomy : t.Roomy render oids keep)
    {make : Tuple → PgoMessage Tuple} {made : List Cell → PgoMessage (List Cell)}
    (calm : ∀ oid raw, render oid raw ≠ .error .panic)
    (maps : ∀ row, (make row).map Tuple.toCells = made row.toCells) :
    Spells Short Calm ((tuple render oids keep).andThen fun row => .ret (make row)) t.bytes
      SameMessage ((t.shown render oids keep).map made) := by
  have both := (spells_tuple t roomy).andThen (k := fun row => ret (make row)) (v := [])
    (Q := SameMessage) (y := fun cells => .ok (made cells)) (fun e is => shown_calm calm is)
    fun src row cells _ _ same => spells_ret fun _ _ => by
      rw [SameMessage, maps, same]
  rw [List.append_nil] at both
  exact both

theorem oldKind (full : Bool) :
    (if full then (79 : UInt8) else 75) = 75 ∨ (if full then (79 : UInt8) else 75) = 79 := by
  cases full <;> decide

theorem spells_message (calm : ∀ oid raw, render oid raw ≠ .error .panic) (m : Sent)
    (roomy : ∀ r ∈ m.rows, r.2.Roomy render (relOids r.1) keep) :
    Spells Short Calm (message render relOids keep m.tag) m.body SameMessage
      (m.shown render relOids keep) := by
  cases m with
  | «begin» finalLsn ts xid =>
      rw [Sent.tag, message_begin]
      exact (gives_u64 finalLsn).andThen ((gives_i64 ts).andThen ((gives_u32 xid).andThen_nil
        (spells_ret fun _ _ => rfl)))
  | commit flags commitLsn endLsn ts =>
      rw [Sent.tag, message_commit]
      exact (gives_u8 flags).andThen ((gives_u64 commitLsn).andThen ((gives_u64 endLsn).andThen
        ((gives_i64 ts).andThen_nil (spells_ret fun _ _ => rfl))))
  | origin body =>
      rw [Sent.tag, message_origin]
      exact spells_ret fun _ _ => rfl
  | relation r =>
      rw [Sent.tag, message_relation]
      exact (gives_relation r).andThen_nil (spells_ret fun _ _ => rfl)
  | type body =>
      rw [Sent.tag, message_type]
      exact spells_ret fun _ _ => rfl
  | insert relId new =>
      rw [Sent.tag, message_insert]
      apply (gives_u32 relId).andThen
      apply (gives_u8 78).andThen
      simp only [reduceIte]
      exact spells_row (roomy _ List.mem_cons_self) calm fun _ => rfl
  | update relId old new =>
      rw [Sent.tag, message_update]
      cases old with
      | none =>
          apply (gives_u32 relId).andThen
          apply (gives_u8 78).andThen
          rw [if_neg (by decide), if_pos rfl]
          exact spells_row (roomy _ List.mem_cons_self) calm fun _ => rfl
      | some old =>
          obtain ⟨full, old⟩ := old
          apply (gives_u32 relId).andThen
          apply (gives_u8 _).andThen
          rw [if_pos (oldKind full)]
          have second : Spells Short Calm (tuple render (relOids relId) keep) _ SameRow _ :=
            spells_tuple old (roomy _ List.mem_cons_self)
          refine second.andThen (fun e is => shown_calm calm is) fun src row cells inside _ same =>
            ?_
          have same : row.toCells = cells := same
          apply (gives_u8 78).andThen
          rw [if_pos rfl]
          have maps : ∀ new : Tuple, (PgoMessage.update relId
              (some ⟨decide ((if full then (79 : UInt8) else 75) = 79), row⟩) new).map
                Tuple.toCells = .update relId (some ⟨full, cells⟩) new.toCells := by
            intro new
            cases full <;> simp [PgoMessage.map, OldImage.map, same]
          have third := spells_row (roomy (relId, new) (List.mem_cons_of_mem _ List.mem_cons_self))
            calm maps
          exact third.mono (fun s is => is ▸ inside) fun _ _ _ _ rel => rel
  | delete relId old =>
      obtain ⟨full, old⟩ := old
      rw [Sent.tag, message_delete]
      apply (gives_u32 relId).andThen
      apply (gives_u8 _).andThen
      rw [if_pos (oldKind full)]
      exact spells_row (roomy _ List.mem_cons_self) calm fun _ => by cases full <;> rfl
  | truncate relIds few cascade restart =>
      have code : (UInt32.ofNat relIds.length).toNat = relIds.length :=
        UInt32.toNat_ofNat_of_lt' few
      have length := gives_u32 (S := Short) (UInt32.ofNat relIds.length)
      rw [code] at length
      rw [Sent.tag, message_truncate]
      apply length.andThen
      apply (gives_u8 _).andThen
      rw [code]
      have ids : Gives Short Calm (Scan.times u32 relIds.length)
          (relIds.flatMap fun id => be 4 id.toNat) (relIds.map id) :=
        gives_times fun id _ => gives_u32 id
      rw [List.map_id] at ids
      exact ids.andThen_nil (spells_ret fun _ _ => by cases cascade <;> cases restart <;> rfl)
  | streamStart xid first =>
      rw [Sent.tag, message_streamStart]
      exact (gives_u32 xid).andThen ((gives_u8 first).andThen_nil (spells_ret fun _ _ => rfl))
  | streamStop =>
      rw [Sent.tag, message_streamStop]
      exact spells_ret fun _ _ => rfl
  | streamCommit xid flags commitLsn endLsn ts =>
      rw [Sent.tag, message_streamCommit]
      exact (gives_u32 xid).andThen ((gives_u8 flags).andThen ((gives_u64 commitLsn).andThen
        ((gives_u64 endLsn).andThen_nil (spells_ret fun _ _ => rfl))))
  | streamAbort xid subXid =>
      rw [Sent.tag, message_streamAbort]
      exact (gives_u32 xid).andThen ((gives_u32 subXid).andThen_nil (spells_ret fun _ _ => rfl))

theorem error_of_map {α β : Type} {f : α → β} {x : Except (Stop Error) α} {e : Stop Error}
    (is : x.map f = .error e) : x = .error e := by
  cases x with
  | ok a => cases is
  | error e' =>
      cases is
      rfl

/-- A decoded message with its (sub)transaction. -/
def SameDecoded (src : Bytes) (d : PgoMessage Tuple × Option UInt32)
    (shown : PgoMessage (List Cell) × Option UInt32) : Prop :=
  SameMessage src d.1 shown.1 ∧ d.2 = shown.2

theorem gives_xid (m : Sent) (stream : Option UInt32) :
    Gives S Calm
      (if stream.isSome ∧ carriesXid m.tag then u32.andThen fun xid => .ret (some xid)
      else .ret none) (m.xidBytes stream) (m.changeXid stream) := by
  cases stream with
  | none =>
      have no : m.changeXid none = none := ite_self none
      rw [no]
      exact gives_ret none
  | some xid =>
      rw [Sent.xidBytes, Sent.changeXid]
      cases carriesXid m.tag with
      | true => exact (gives_u32 xid).map some
      | false => exact gives_ret none

theorem shown_ne_panic (calm : ∀ oid raw, render oid raw ≠ .error .panic) (m : Sent)
    {e : Stop Error} (is : m.shown render relOids keep = .error e) : Calm e := by
  cases m with
  | insert relId new => exact shown_calm calm (error_of_map is)
  | update relId old new =>
      cases old with
      | none => exact shown_calm calm (error_of_map is)
      | some old =>
          rw [Sent.shown] at is
          cases first : old.tuple.shown render (relOids relId) keep with
          | ok cells =>
              rw [first, Stop.ok_bind] at is
              exact shown_calm calm (error_of_map is)
          | error e' =>
              rw [first] at is
              cases is
              exact shown_calm calm first
  | delete relId old => exact shown_calm calm (error_of_map is)
  | «begin» => cases is
  | commit => cases is
  | origin => cases is
  | relation => cases is
  | type => cases is
  | truncate => cases is
  | streamStart => cases is
  | streamStop => cases is
  | streamCommit => cases is
  | streamAbort => cases is

theorem spells_decodeScan (calm : ∀ oid raw, render oid raw ≠ .error .panic) (m : Sent)
    (stream : Option UInt32) (roomy : ∀ r ∈ m.rows, r.2.Roomy render (relOids r.1) keep) :
    Spells Short Calm (decodeScan render stream.isSome relOids keep) (m.read stream) SameDecoded
      ((m.shown render relOids keep).map (·, m.changeXid stream)) := by
  rw [decodeScan, Sent.read]
  apply (gives_u8 m.tag).andThen
  apply (gives_xid m stream).andThen
  have last := (spells_message calm m roomy).andThen (k := fun msg => ret (msg, m.changeXid stream))
    (v := []) (Q := SameDecoded) (y := fun shown => .ok (shown, m.changeXid stream))
    (fun e is => shown_ne_panic calm m is)
    fun src msg shown _ _ same => spells_ret fun s is => ⟨is ▸ same, rfl⟩
  rw [List.append_nil] at last
  exact last

end messages

end Apitap.Pgo
