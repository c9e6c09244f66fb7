import Apitap.Wire.PgoMessages

/-!
# Decoding inverts sending, and ends on any bytes

The rows a decoder meets in a payload are those standing where it reads them, whatever the
payload is. While none of them comes to 4 GiB of text, decoding ends without a panic; on what
a server sends it gives the message back; on a message cut short it gives an error.
-/

namespace Apitap.Pgo

open Foundation Scan
open Copy (be fromBe be_fromBe length_be)

/-- The kind in front of the first row of a change. -/
def rowKind (tag kind : UInt8) : Prop :=
  (tag = 73 ∧ kind = 78) ∨ (tag = 85 ∧ (kind = 75 ∨ kind = 79 ∨ kind = 78)) ∨
    (tag = 68 ∧ (kind = 75 ∨ kind = 79))

/-- A change's bytes in front of its rows. -/
structure Front (inStream : Bool) (tag : UInt8) (relId : UInt32) (front : Bytes) : Prop where
  made : ∃ xid, xid.length = (if inStream then 4 else 0) ∧
    front = [tag] ++ (xid ++ be 4 relId.toNat)

/-- A row where a decoder reads one: the first of a change, or the new row of an update behind
its old image. -/
inductive RowIn (payload : Bytes) (inStream : Bool) (relId : UInt32) (t : WireTuple) : Prop where
  | first {tag kind : UInt8} {front : Bytes} (is_change : Front inStream tag relId front)
      (opens : rowKind tag kind) (stands : Stands payload 0 (front ++ ([kind] ++ t.bytes)))
  | second {kind : UInt8} {front : Bytes} {old : WireTuple}
      (is_update : Front inStream 85 relId front) (opens : kind = 75 ∨ kind = 79)
      (stands : Stands payload 0 (front ++ ([kind] ++ (old.bytes ++ ([78] ++ t.bytes)))))

/-- No row of a payload comes to 4 GiB of text. -/
def RoomyPayload (render : Render) (relOids : Oids) (keep inStream : Bool) (payload : Bytes) :
    Prop :=
  ∀ relId t, RowIn payload inStream relId t → t.Roomy render (relOids relId) keep

/-! ## Safe readers -/

variable {src : Bytes} {pos : Nat}

theorem calm_short : Calm short := calm_refused _

theorem safe_u8 : Safe Calm u8 := by
  intro src pos inside
  rw [u8]
  cases at_pos : src[pos]? with
  | none => exact calm_short
  | some b =>
      obtain ⟨within, -⟩ := List.getElem?_eq_some_iff.mp at_pos
      exact within

theorem safe_take_map {α : Type} (n : Nat) (f : Bytes → α) :
    Safe Calm ((take n).andThen fun bs => .ret (f bs)) :=
  (safe_take calm_short n).andThen fun bs => safe_ret (f bs)

theorem safe_u16 : Safe Calm u16 := safe_take_map 2 _
theorem safe_u32 : Safe Calm u32 := safe_take_map 4 _
theorem safe_i32 : Safe Calm i32 := safe_take_map 4 _
theorem safe_u64 : Safe Calm u64 := safe_take_map 8 _
theorem safe_i64 : Safe Calm i64 := safe_take_map 8 _

theorem safe_cstr : Safe Calm cstr := by
  intro src pos inside
  rw [cstr, if_pos inside]
  dsimp only
  split
  case isTrue ended =>
    rw [List.length_drop] at ended
    split
    · show pos + _ ≤ src.length
      omega
    · exact calm_refused _
  case isFalse => exact calm_refused _

theorem safe_ite {c : Prop} [Decidable c] {α : Type} {x y : Read α} (yes : Safe Calm x)
    (no : Safe Calm y) : Safe Calm (if c then x else y) := by
  split
  · exact yes
  · exact no

theorem safe_relation : Safe Calm relation :=
  safe_u32.andThen fun _ => safe_cstr.andThen fun _ => safe_cstr.andThen fun _ =>
    safe_u8.andThen fun _ => safe_u16.andThen fun n =>
      (safe_times (safe_u8.andThen fun _ => safe_cstr.andThen fun _ => safe_u32.andThen fun _ =>
        safe_i32.andThen fun _ => safe_ret _) n).andThen fun _ => safe_ret _

/-! ## What a reader has read -/

/-- Read a word and stand behind it. -/
def Past (src : Bytes) (pos : Nat) (w : Bytes) (fin : Nat) : Prop :=
  Stands src pos w ∧ fin = pos + w.length

theorem past_nil (inside : pos ≤ src.length) : Past src pos [] pos := by
  refine ⟨⟨src.take pos, src.drop pos, ?_, ?_⟩, rfl⟩
  · rw [List.nil_append, List.take_append_drop]
  · rw [List.length_take, Nat.min_eq_left inside]

namespace Past

variable {u v : Bytes} {mid fin : Nat}

theorem append (first : Past src pos u mid) (second : Past src mid v fin) :
    Past src pos (u ++ v) fin := by
  obtain ⟨at_u, rfl⟩ := first
  obtain ⟨at_v, rfl⟩ := second
  exact ⟨at_u.append at_v, by rw [List.length_append, Nat.add_assoc]⟩

theorem within (past : Past src pos u fin) : fin ≤ src.length := by
  obtain ⟨at_u, rfl⟩ := past
  exact at_u.length_le

end Past

theorem ends_u8 : Ends Calm (fun b fin => Past src pos [b] fin) (u8 src pos) := by
  rw [u8]
  cases at_pos : src[pos]? with
  | none => exact calm_short
  | some b =>
      obtain ⟨within, is⟩ := List.getElem?_eq_some_iff.mp at_pos
      refine ⟨⟨src.take pos, src.drop (pos + 1), ?_, ?_⟩, rfl⟩
      · rw [← is, List.singleton_append, ← List.drop_eq_getElem_cons within, List.take_append_drop]
      · rw [List.length_take]
        omega

theorem ends_u16 :
    Ends Calm (fun n fin => n < 2 ^ 16 ∧ Past src pos (be 2 n) fin) (u16 src pos) := by
  refine (ends_take calm_short 2).andThen fun bs fin read => ?_
  obtain ⟨rfl, len, stands⟩ := read
  have low := Copy.fromBe_lt bs
  have back := be_fromBe bs
  rw [len] at low back
  show fromBe bs < 2 ^ 16 ∧ Past src pos (be 2 (fromBe bs)) _
  rw [back]
  exact ⟨low, stands, by rw [len]⟩

theorem ends_u32 : Ends Calm (fun x fin => Past src pos (be 4 x.toNat) fin) (u32 src pos) := by
  refine (ends_take calm_short 4).andThen fun bs fin read => ?_
  obtain ⟨rfl, len, stands⟩ := read
  have low := Copy.fromBe_lt bs
  have back := be_fromBe bs
  rw [len] at low back
  show Past src pos (be 4 (UInt32.ofNat (fromBe bs)).toNat) _
  rw [UInt32.toNat_ofNat_of_lt' low, back]
  exact ⟨stands, by rw [len]⟩

/-- The value behind its length. -/
theorem ends_range :
    Ends Calm (fun _ fin => ∃ t : Bytes, t.length < 2 ^ 32 ∧ Past src pos (be 4 t.length ++ t) fin)
      (range src pos) := by
  refine ends_u32.andThen fun len mid at_len => ?_
  have placed : Ends Calm (fun _ fin => ∃ t : Bytes, t.length = len.toNat ∧ Past src mid t fin)
      (place short len.toNat src mid) := by
    refine Ends.andThen (A := fun start fin => start = mid ∧ fin = mid) ⟨rfl, rfl⟩ ?_
    rintro start _ ⟨rfl, rfl⟩
    refine (ends_take calm_short _).andThen fun bs fin read => ?_
    obtain ⟨rfl, same, stands⟩ := read
    refine ⟨bs, same, stands, ?_⟩
    rw [same]
  refine placed.andThen fun start fin read => ?_
  obtain ⟨t, same, at_t⟩ := read
  refine ⟨t, same ▸ len.toNat_lt, ?_⟩
  rw [same]
  exact at_len.append at_t

/-- A cell that was read is one that could have been sent. -/
theorem ends_cell :
    Ends Calm (fun _ fin => ∃ c : WireCell, c.size < 2 ^ 32 ∧ Past src pos c.bytes fin)
      (cell src pos) := by
  refine ends_u8.andThen fun kind mid at_kind => ?_
  split
  case isTrue is =>
    subst is
    exact ⟨.null, by decide, at_kind⟩
  split
  case isTrue is =>
    subst is
    exact ⟨.unchanged, by decide, at_kind⟩
  split
  case isTrue is =>
    subst is
    refine ends_range.andThen fun r fin read => ?_
    obtain ⟨t, fits, at_t⟩ := read
    exact ⟨.text t, fits, at_kind.append at_t⟩
  split
  case isTrue is =>
    subst is
    refine ends_range.andThen fun r fin read => ?_
    obtain ⟨t, fits, at_t⟩ := read
    exact ⟨.binary t, fits, at_kind.append at_t⟩
  case isFalse => exact calm_refused _

theorem ends_cells (inside : pos ≤ src.length) (i n : Nat) :
    Ends Calm (fun _ fin => ∃ cs : List WireCell, cs.length = n ∧ (∀ c ∈ cs, c.size < 2 ^ 32) ∧
      Past src pos (cs.flatMap WireCell.bytes) fin) (cells i n src pos) := by
  induction n generalizing i pos with
  | zero => exact ⟨[], rfl, List.forall_mem_nil _, past_nil inside⟩
  | succ n ih =>
      refine ends_cell.andThen fun r mid read => ?_
      obtain ⟨c, fits, at_cell⟩ := read
      refine (ih at_cell.within (i + 1)).andThen fun rs fin read => ?_
      obtain ⟨cs, len, fit, at_cells⟩ := read
      exact ⟨c :: cs, by rw [List.length_cons, len], List.forall_mem_cons.mpr ⟨fits, fit⟩,
        at_cell.append at_cells⟩

variable {render : Render} {relOids : Oids} {oids : Option (List UInt32)} {keep : Bool}

/-- A row that was read is one that could have been sent. -/
theorem ends_tuple (calm : ∀ oid raw, render oid raw ≠ .error .panic) (inside : Short src)
    (roomy : ∀ t : WireTuple, Stands src pos t.bytes → t.Roomy render oids keep) :
    Ends Calm (fun _ fin => ∃ t : WireTuple, Past src pos t.bytes fin)
      (tuple render oids keep src pos) := by
  have begins : Ends Calm (fun _ _ => ∃ t : WireTuple, Stands src pos t.bytes)
      ((u16.andThen fun n => cells 0 n) src pos) := by
    refine ends_u16.andThen fun n mid read => ?_
    obtain ⟨few, at_n⟩ := read
    refine (ends_cells at_n.within 0 n).mono fun rs fin read => ?_
    obtain ⟨cs, rfl, fit, at_cells⟩ := read
    exact ⟨⟨cs, few, fit⟩, (at_n.append at_cells).1⟩
  cases read : (u16.andThen fun n => cells 0 n) src pos with
  | error e =>
    rw [read] at begins
    have same : tuple render oids keep src pos = .error e := andThen_error read
    rw [same]
    exact begins
  | ok r =>
    rw [read] at begins
    obtain ⟨t, stands⟩ := begins
    have outcome := (spells_tuple t (roomy t stands)).whole src pos inside stands
    cases shown : t.shown render oids keep with
    | error e =>
      rw [shown] at outcome
      have failed : tuple render oids keep src pos = .error e := outcome
      rw [failed]
      exact shown_calm calm shown
    | ok cells =>
      rw [shown] at outcome
      obtain ⟨row, is, -⟩ := outcome
      rw [is]
      exact ⟨t, stands, rfl⟩

/-! ## Any payload -/

variable {payload : Bytes} {inStream : Bool} {relId : UInt32}

/-- Where the relation's number of a change was read, the rows behind it are rows of the
payload. -/
theorem ends_rows (calm : ∀ oid raw, render oid raw ≠ .error .panic) (inside : Short payload)
    (roomy : RoomyPayload render relOids keep inStream payload) {tag : UInt8}
    {xid : Bytes} (len : xid.length = if inStream then 4 else 0)
    (at_xid : Past payload 0 ([tag] ++ xid) pos)
    (change : tag = 73 ∨ tag = 85 ∨ tag = 68) :
    Ends Calm (fun _ _ => True) (message render relOids keep tag payload pos) := by
  have front : ∀ {relId : UInt32} {mid : Nat}, Past payload pos (be 4 relId.toNat) mid →
      Past payload 0 ([tag] ++ (xid ++ be 4 relId.toNat)) mid := by
    intro relId mid at_rel
    rw [← List.append_assoc]
    exact at_xid.append at_rel
  have first : ∀ {relId : UInt32} {mid fin : Nat} {kind : UInt8},
      Past payload pos (be 4 relId.toNat) mid → Past payload mid [kind] fin → rowKind tag kind →
      Ends Calm (fun _ fin' => ∃ t : WireTuple, Past payload fin t.bytes fin')
        (tuple render (relOids relId) keep payload fin) := by
    intro relId mid fin kind at_rel at_kind opens
    refine ends_tuple calm inside fun t stands => ?_
    refine roomy relId t (.first ⟨xid, len, rfl⟩ opens ?_)
    exact ((front at_rel).append (at_kind.append ⟨stands, rfl⟩)).1
  rcases change with rfl | rfl | rfl
  · rw [message_insert]
    refine ends_u32.andThen fun relId mid at_rel => ?_
    refine ends_u8.andThen fun kind fin at_kind => ?_
    split
    case isTrue is => exact (first at_rel at_kind (.inl ⟨rfl, is⟩)).andThen fun _ _ _ => trivial
    case isFalse => exact calm_mistaken _ _ _
  · rw [message_update]
    refine ends_u32.andThen fun relId mid at_rel => ?_
    refine ends_u8.andThen fun kind fin at_kind => ?_
    split
    case isTrue old =>
      have opens : rowKind 85 kind := .inr (.inl ⟨rfl, old.imp_right .inl⟩)
      refine (first at_rel at_kind opens).andThen fun row at_row read => ?_
      obtain ⟨t, past_row⟩ := read
      refine ends_u8.andThen fun second at_new past_new => ?_
      split
      case isTrue is =>
        subst is
        have new : Ends Calm (fun _ fin' => ∃ u : WireTuple, Past payload at_new u.bytes fin')
            (tuple render (relOids relId) keep payload at_new) := by
          refine ends_tuple calm inside fun u stands => ?_
          have both := (front at_rel).append (at_kind.append (past_row.append
            (past_new.append (⟨stands, rfl⟩ : Past payload at_new u.bytes _))))
          exact roomy relId u (.second ⟨xid, len, rfl⟩ old both.1)
        exact new.andThen fun _ _ _ => trivial
      case isFalse => exact calm_mistaken _ _ _
    case isFalse =>
      split
      case isTrue is =>
        have opens : rowKind 85 kind := .inr (.inl ⟨rfl, .inr (.inr is)⟩)
        exact (first at_rel at_kind opens).andThen fun _ _ _ => trivial
      case isFalse => exact calm_mistaken _ _ _
  · rw [message_delete]
    refine ends_u32.andThen fun relId mid at_rel => ?_
    refine ends_u8.andThen fun kind fin at_kind => ?_
    split
    case isTrue is =>
      exact (first at_rel at_kind (.inr (.inr ⟨rfl, is⟩))).andThen fun _ _ _ => trivial
    case isFalse => exact calm_mistaken _ _ _

/-- A message without rows. -/
theorem safe_message {tag : UInt8} (other : ¬ (tag = 73 ∨ tag = 85 ∨ tag = 68)) :
    Safe Calm (message render relOids keep tag) := by
  obtain ⟨no_insert, no_update, no_delete⟩ := not_or.mp other |>.imp_right not_or.mp
  dsimp only [message]
  rw [if_neg no_insert, if_neg no_update, if_neg no_delete]
  apply safe_ite
  · exact safe_u32.andThen fun _ => safe_u8.andThen fun _ => safe_ret _
  apply safe_ite
  · exact safe_ret _
  apply safe_ite
  · exact safe_u32.andThen fun _ => safe_u8.andThen fun _ => safe_u64.andThen fun _ =>
      safe_u64.andThen fun _ => safe_ret _
  apply safe_ite
  · exact safe_u32.andThen fun _ => safe_u32.andThen fun _ => safe_ret _
  apply safe_ite
  · exact safe_u64.andThen fun _ => safe_i64.andThen fun _ => safe_u32.andThen fun _ => safe_ret _
  apply safe_ite
  · exact safe_u8.andThen fun _ => safe_u64.andThen fun _ => safe_u64.andThen fun _ =>
      safe_i64.andThen fun _ => safe_ret _
  apply safe_ite
  · exact safe_ret _
  apply safe_ite
  · exact safe_ret _
  apply safe_ite
  · exact safe_relation.andThen fun _ => safe_ret _
  apply safe_ite
  · exact safe_u32.andThen fun n => safe_u8.andThen fun _ => (safe_times safe_u32 n.toNat).andThen
      fun _ => safe_ret _
  · exact safe_fail (calm_refused _)

/-- No payload below 4 GiB makes decoding panic, while its rows' texts stay below 4 GiB. -/
theorem decode_calm (calm : ∀ oid raw, render oid raw ≠ .error .panic) (inside : Short payload)
    (roomy : RoomyPayload render relOids keep inStream payload) :
    decode render payload inStream relOids keep ≠ .error .panic := by
  have ends : Ends Calm (fun _ _ => True) (decodeScan render inStream relOids keep payload 0) := by
    refine ends_u8.andThen fun tag mid at_tag => ?_
    have xid : Ends Calm (fun _ fin => ∃ xid : Bytes, Past payload mid xid fin ∧
        (carriesXid tag = true → xid.length = if inStream then 4 else 0))
        ((if inStream ∧ carriesXid tag then u32.andThen fun xid => .ret (some xid)
          else .ret none : Read (Option UInt32)) payload mid) := by
      by_cases carries : inStream = true ∧ carriesXid tag = true
      · rw [if_pos carries]
        refine ends_u32.andThen fun x fin at_xid => ?_
        have len : (be 4 x.toNat).length = if inStream then 4 else 0 := by
          rw [if_pos carries.1, length_be]
        exact ⟨be 4 x.toNat, at_xid, fun _ => len⟩
      · rw [if_neg carries]
        have len : carriesXid tag = true → ([] : Bytes).length = if inStream then 4 else 0 := by
          intro has
          cases inStream with
          | false => rfl
          | true => exact absurd ⟨rfl, has⟩ carries
        exact ⟨[], past_nil at_tag.within, len⟩
    refine xid.andThen fun changeXid pos read => ?_
    obtain ⟨xid, at_xid, len⟩ := read
    have msg : Ends Calm (fun _ _ => True) (message render relOids keep tag payload pos) := by
      by_cases change : tag = 73 ∨ tag = 85 ∨ tag = 68
      · have carries : carriesXid tag = true := by
          rcases change with rfl | rfl | rfl <;> decide
        exact ends_rows calm inside roomy (len carries) (at_tag.append at_xid) change
      · exact (safe_message change payload pos at_xid.within).mono fun _ _ _ => trivial
    exact msg.andThen fun _ _ _ => trivial
  intro panics
  rw [decode] at panics
  rw [error_of_map panics] at ends
  exact ends rfl

/-! ## What a server sends -/

/-- A decoded message, by what its rows show. -/
def view (d : PgoMessage Tuple × Option UInt32) : PgoMessage (List Cell) × Option UInt32 :=
  (d.1.map Tuple.toCells, d.2)

theorem decode_encode (calm : ∀ oid raw, render oid raw ≠ .error .panic) (m : Sent)
    (stream : Option UInt32) (inside : Short (m.encode stream))
    (roomy : ∀ r ∈ m.rows, r.2.Roomy render (relOids r.1) keep) :
    (decode render (m.encode stream) stream.isSome relOids keep).map view =
      (m.shown render relOids keep).map (·, m.changeXid stream) := by
  have stands : Stands (m.encode stream) 0 (m.read stream) := ⟨[], m.unread, rfl, rfl⟩
  have outcome := (spells_decodeScan calm m stream roomy).whole _ 0 inside stands
  rw [decode]
  cases shown : m.shown render relOids keep with
  | error e =>
      rw [shown] at outcome
      have failed : decodeScan render stream.isSome relOids keep (m.encode stream) 0 = .error e :=
        outcome
      rw [failed]
      rfl
  | ok msg =>
      rw [shown] at outcome
      obtain ⟨d, is, same_msg, same_xid⟩ := outcome
      rw [is]
      exact congrArg Except.ok (Prod.ext same_msg same_xid)

theorem decode_cut (calm : ∀ oid raw, render oid raw ≠ .error .panic) (m : Sent)
    (stream : Option UInt32) (inside : Short (m.read stream))
    (roomy : ∀ r ∈ m.rows, r.2.Roomy render (relOids r.1) keep) {u v : Bytes}
    (cut : m.read stream = u ++ v) (more : v ≠ []) :
    ∃ e, decode render u stream.isSome relOids keep = .error (.err e) := by
  have shorter : Short u := by
    have bound : (m.read stream).length < 2 ^ 32 := inside
    rw [cut, List.length_append] at bound
    exact Nat.lt_of_le_of_lt (Nat.le_add_right _ _) bound
  have ends : EndsIn u 0 (m.read stream) := ⟨[], u, v, rfl, rfl, cut, more⟩
  obtain ⟨e, failed, calm_e⟩ := (spells_decodeScan calm m stream roomy).cut u 0 shorter ends
  rw [decode, failed]
  cases e with
  | err e => exact ⟨e, rfl⟩
  | panic => exact absurd rfl calm_e

theorem decoding_inverts_sending (floats : Decimal.Floats) (relOids : Oids) (keep : Bool) :
    (∀ (m : Sent) (stream : Option UInt32), (m.encode stream).length < 2 ^ 32 →
      (∀ r ∈ m.rows, r.2.Roomy (BinDec.render floats) (relOids r.1) keep) →
      (decode (BinDec.render floats) (m.encode stream) stream.isSome relOids keep).map view =
        (m.shown (BinDec.render floats) relOids keep).map (·, m.changeXid stream)) ∧
    (∀ (payload : Bytes) (inStream : Bool), payload.length < 2 ^ 32 →
      RoomyPayload (BinDec.render floats) relOids keep inStream payload →
      decode (BinDec.render floats) payload inStream relOids keep ≠ .error .panic) ∧
    (∀ (m : Sent) (stream : Option UInt32), (m.read stream).length < 2 ^ 32 →
      (∀ r ∈ m.rows, r.2.Roomy (BinDec.render floats) (relOids r.1) keep) →
      ∀ u v, m.read stream = u ++ v → v ≠ [] →
        ∃ e, decode (BinDec.render floats) u stream.isSome relOids keep = .error (.err e)) := by
  have calm := BinDec.render_calm floats
  refine ⟨?_, ?_, ?_⟩
  · intro m stream inside roomy
    exact decode_encode calm m stream inside roomy
  · intro payload inStream inside roomy
    exact decode_calm calm inside roomy
  · intro m stream inside roomy u v cut more
    exact decode_cut calm m stream inside roomy cut more

/-- A counter goes from 41 to 42, and a long text stays as it was. -/
def countedUp : Sent :=
  .update 7
    (some ⟨true, ⟨[.binary [0, 0, 0, 41], .text [104, 105]], by decide, by decide⟩⟩)
    ⟨[.binary [0, 0, 0, 42], .unchanged], by decide, by decide⟩

theorem decoding_inverts_sending_update :
    let floats : Decimal.Floats := ⟨fun _ => [], fun _ => []⟩
    (decode (BinDec.render floats) (countedUp.encode (some 9)) true (fun _ => some [23, 25])
      false).map view =
      .ok (.update 7 (some ⟨true, [.text [52, 49], .text [104, 105]]⟩)
        [.text [52, 50], .unchangedToast], some 9) ∧
    ∃ e, decode (BinDec.render floats) ((countedUp.read (some 9)).take 20) true
      (fun _ => some [23, 25]) false = .error (.err e) := by
  intro floats
  have roomy : ∀ r ∈ countedUp.rows,
      r.2.Roomy (BinDec.render floats) (some [23, 25]) false := by
    intro r mem
    refine .inr fun os is _ => ?_
    obtain rfl := Option.some.inj is
    obtain rfl | mem := List.mem_cons.mp mem
    · exact (by decide : 4 < 2 ^ 32)
    · obtain rfl := List.mem_singleton.mp mem
      exact (by decide : 2 < 2 ^ 32)
  have inverts := decoding_inverts_sending floats (fun _ => some [23, 25]) false
  constructor
  · exact inverts.1 countedUp (some 9) (by decide) roomy
  · exact inverts.2.2 countedUp (some 9) (by decide) roomy _ ((countedUp.read (some 9)).drop 20)
      (List.take_append_drop 20 _).symm (by decide)

/-! ## Where it does not -/

/-- A value that brings a frame over 4 GiB. -/
theorem rebuild_over {frame grown t : Bytes} {os : List UInt32} {i o l : Nat} {idx : List Nat}
    {rs : List CellR} (inside : Short src) (is : (src.drop o).take l = t)
    (within : o + l ≤ src.length)
    (laid : (if idx.head? = some i then
        (Stop.orPanic os[i]?).bind fun oid => (render oid.toNat t).map (frame ++ ·)
      else .ok (frame ++ t)) = .ok grown)
    (small : frame.length < 2 ^ 32) (over_ : 2 ^ 32 ≤ grown.length)
    (once : grown.length < 2 ^ 32 + frame.length) :
    rebuild render src os i idx (.text o l :: rs) frame = .error .panic := by
  have bound : src.length < 2 ^ 32 := inside
  have fin : checkedNat 32 (o + l) = some (o + l) := checkedNat_of_lt (by omega)
  have start : frame.length % 2 ^ 32 = frame.length := Nat.mod_eq_of_lt small
  have back : ¬ frame.length ≤ grown.length % 2 ^ 32 := by omega
  simp only [rebuild, fin, slice_place is within, Stop.orPanic_some, Stop.ok_bind, laid, start,
    if_neg back, Stop.orPanic_none]
  rfl

/-- A row of a value of a gigabyte, twice. -/
def bigRow (z : Bytes) (gigabyte : z.length = 2 ^ 30) : WireTuple where
  cells := [.binary z, .binary z]
  few := (by decide : 2 < 2 ^ 16)
  fit c c_mem := by
    have is : c = .binary z := by simpa using c_mem
    rw [is, WireCell.size, gigabyte]
    decide

variable {z : Bytes} (gigabyte : z.length = 2 ^ 30)

theorem length_pushHex (raw : Bytes) : (BinDec.pushHex raw).length = 2 * raw.length := by
  induction raw with
  | nil => rfl
  | cons b raw ih =>
      rw [BinDec.pushHex, List.flatMap_cons, List.length_append, ← BinDec.pushHex, ih,
        List.length_cons]
      show 2 + 2 * raw.length = 2 * (raw.length + 1)
      omega

include gigabyte in
theorem rebuild_twice (floats : Decimal.Floats) (inside : Short src) {rs : List CellR}
    (lies : List.Forall₂ (Lies src) rs [.text z, .text z]) :
    rebuild (BinDec.render floats) src [17, 17] 0 [0, 1] rs [] = .error .panic := by
  obtain ⟨c, cs, lie, others, rfl⟩ := List.forall₂_cons_right_iff.mp lies
  obtain ⟨d, ds, lie', others', rfl⟩ := List.forall₂_cons_right_iff.mp others
  obtain ⟨o, l, rfl, is, within⟩ := Lies.text lie
  obtain ⟨o', l', rfl, is', within'⟩ := Lies.text lie'
  have text : BinDec.render floats (17 : UInt32).toNat z =
      .ok ([92, 120] ++ BinDec.pushHex z) := rfl
  have len : ([92, 120] ++ BinDec.pushHex z).length = 2 + 2 ^ 31 := by
    rw [List.length_append, length_pushHex, gigabyte]
    rfl
  generalize [92, 120] ++ BinDec.pushHex z = hex at text len
  have asked : [0, 1].head? = some 0 := rfl
  have then_asked : [1].head? = some 1 := rfl
  have oid : Stop.orPanic [(17 : UInt32), 17][0]? = (.ok 17 : Except (Stop Error) UInt32) := rfl
  have oid' : Stop.orPanic [(17 : UInt32), 17][1]? = (.ok 17 : Except (Stop Error) UInt32) := rfl
  have first : (if [0, 1].head? = some 0 then
      (Stop.orPanic [(17 : UInt32), 17][0]?).bind fun oid =>
        (BinDec.render floats oid.toNat z).map (([] : Bytes) ++ ·)
    else .ok (([] : Bytes) ++ z)) = .ok hex := by
    rw [if_pos asked, oid, Stop.ok_bind, text]
    rfl
  have second : (if [1].head? = some 1 then
      (Stop.orPanic [(17 : UInt32), 17][1]?).bind fun oid =>
        (BinDec.render floats oid.toNat z).map (hex ++ ·)
    else .ok (hex ++ z)) = .ok (hex ++ hex) := by
    rw [if_pos then_asked, oid', Stop.ok_bind, text]
    rfl
  have twice : (hex ++ hex).length = 4 + 2 ^ 32 := by
    rw [List.length_append, len]
    norm_num
  rw [rebuild_text inside is within first (Nat.zero_le _) (by rw [len]; norm_num)]
  have panics : rebuild (BinDec.render floats) src [17, 17] 1 [1] (.text o' l' :: ds) hex =
      .error .panic := by
    apply rebuild_over inside is' within' second
    · rw [len]
      norm_num
    · rw [twice]
      norm_num
    · rw [twice, len]
      norm_num
  rw [if_pos asked]
  show (rebuild (BinDec.render floats) src [17, 17] 1 [1] _ hex).map _ = _
  rw [panics]
  rfl

/-- What a row spells that makes the decoder panic. -/
theorem spells_bigRow (floats : Decimal.Floats) :
    Spells Short (fun _ => True) (tuple (BinDec.render floats) (some [17, 17]) false)
      (bigRow z gigabyte).bytes
      SameRow (.error .panic) := by
  rw [tuple, WireTuple.bytes]
  have count : Gives Short (fun _ => True) u16 (be 2 (bigRow z gigabyte).cells.length)
    (bigRow z gigabyte).cells.length :=
    (gives_u16 (bigRow z gigabyte).few).loosen fun _ _ => trivial
  refine count.andThen ?_
  refine ((spells_cells 0 (bigRow z gigabyte).fit).loosen fun _ _ => trivial).andThen_nil
    fun src r inside same => ?_
  have there : Spells (fun s => s = src) (fun _ => True) (source : Read Bytes) [] _ (.ok ()) :=
    spells_source
  refine there.andThen_nil fun s src' is same_src => ?_
  subst is same_src
  obtain ⟨lies, idx⟩ := same
  have marked : r.2 = [0, 1] := idx
  have panics := rebuild_twice gigabyte floats inside lies
  rw [marked, if_neg (by decide)]
  have wide : ¬ [(17 : UInt32), 17].length ≠ (bigRow z gigabyte).cells.length := fun no => no rfl
  dsimp only
  rw [if_neg wide, panics]
  exact spells_fail

theorem short_bigRow : ((Sent.insert 1 (bigRow z gigabyte)).encode none).length < 2 ^ 32 := by
  have cell : (WireCell.binary z).bytes.length = 5 + 2 ^ 30 := by
    rw [WireCell.bytes, List.length_append, List.length_append, length_be, gigabyte]
    rfl
  have row : (bigRow z gigabyte).bytes.length = 12 + 2 ^ 31 := by
    rw [WireTuple.bytes, List.length_append, length_be, bigRow, List.flatMap_cons,
      List.flatMap_cons, List.flatMap_nil, List.length_append, List.append_nil, cell]
    norm_num
  have read : (Sent.insert 1 (bigRow z gigabyte)).encode none =
      [73] ++ (be 4 (1 : UInt32).toNat ++ ([78] ++ (bigRow z gigabyte).bytes)) := List.append_nil _
  rw [read, List.length_append, List.length_append, List.length_append, length_be, row]
  norm_num

/-- An insert of the row, decoded. -/
theorem decode_bigRow (floats : Decimal.Floats) :
    decode (BinDec.render floats) ((Sent.insert 1 (bigRow z gigabyte)).encode none) false
      (fun _ => some [17, 17]) false = .error .panic := by
  have row := (spells_bigRow gigabyte floats).andThen (k :=
    fun new => ret (PgoMessage.insert 1 new))
    (v := []) (Q := SameMessage) (y := fun new => .ok (.insert 1 new)) (fun _ _ => trivial)
    fun src t cells _ is => by cases is
  rw [List.append_nil] at row
  have relation : Gives Short (fun _ => True) u32 (be 4 (1 : UInt32).toNat) 1 :=
    (gives_u32 1).loosen fun _ _ => trivial
  have byte : ∀ b : UInt8, Gives Short (fun _ => True) u8 [b] b := fun b =>
    (gives_u8 b).loosen fun _ _ => trivial
  have message : Spells Short (fun _ => True)
      (message (BinDec.render floats) (fun _ => some [17, 17]) false 73)
      (be 4 (1 : UInt32).toNat ++ ([78] ++ (bigRow z gigabyte).bytes)) SameMessage
        (.error .panic) := by
    dsimp only [message]
    iterate 9 rw [if_neg (by decide)]
    rw [if_pos rfl]
    refine relation.andThen ((byte 78).andThen ?_)
    rw [if_pos rfl]
    exact row
  have read : (Sent.insert 1 (bigRow z gigabyte)).encode none =
      [73] ++ ([] ++ (be 4 (1 : UInt32).toNat ++ ([78] ++ (bigRow z gigabyte).bytes))) :=
        List.append_nil _
  have outside : Gives Short (fun _ => True) (ret none : Read (Option UInt32)) [] none :=
    gives_ret none
  have whole : Spells Short (fun _ => True)
      (decodeScan (BinDec.render floats) false (fun _ => some [17, 17]) false)
      ((Sent.insert 1 (bigRow z gigabyte)).encode none) SameDecoded (.error .panic) := by
    rw [read, decodeScan]
    refine (byte 73).andThen ?_
    rw [if_neg (by decide)]
    refine outside.andThen ?_
    have last := message.andThen (k := fun msg => ret (msg, (none : Option UInt32))) (v := [])
      (Q := SameDecoded) (y := fun shown => .ok (shown, none)) (fun _ _ => trivial)
      fun src t cells _ is => by cases is
    rw [List.append_nil] at last
    exact last
  have stands : Stands ((Sent.insert 1 (bigRow z gigabyte)).encode none) 0
    ((Sent.insert 1 (bigRow z gigabyte)).encode none) :=
    ⟨[], [], (List.append_nil _).symm, rfl⟩
  have failed : decodeScan (BinDec.render floats) false (fun _ => some [17, 17]) false
      ((Sent.insert 1 (bigRow z gigabyte)).encode none) 0 = .error .panic :=
    whole.whole _ 0 (short_bigRow gigabyte) stands
  rw [decode, failed]
  rfl

/-- A commit of a streamed transaction without its last byte is read as if it were whole, since
its time is not read; and two byte arrays of a gigabyte make a frame of more than 4 GiB. -/
theorem decoding_reads_too_little_and_panics :
    (¬ ∀ (floats : Decimal.Floats) (relOids : Oids) (keep : Bool) (m : Sent)
        (stream : Option UInt32), m.tag ≠ 79 ∧ m.tag ≠ 89 →
        ∀ u v, m.encode stream = u ++ v → v ≠ [] →
          ∃ e, decode (BinDec.render floats) u stream.isSome relOids keep = .error (.err e)) ∧
    ¬ ∀ (floats : Decimal.Floats) (relOids : Oids) (keep : Bool) (payload : Bytes)
        (inStream : Bool), payload.length < 2 ^ 32 →
        decode (BinDec.render floats) payload inStream relOids keep ≠ .error .panic := by
  constructor
  · intro always
    have cut := always ⟨fun _ => [], fun _ => []⟩ (fun _ => none) false
      (.streamCommit 7 0 16 32 5) none (by decide)
      [99, 0, 0, 0, 7, 0, 0, 0, 0, 0, 0, 0, 0, 16, 0, 0, 0, 0, 0, 0, 0, 32, 0, 0, 0, 0, 0, 0, 0]
      [5] (by decide) (by decide)
    obtain ⟨e, is⟩ := cut
    cases is
  · intro never
    have gigabyte : (List.replicate (2 ^ 30) (0 : UInt8)).length = 2 ^ 30 := List.length_replicate
    have panics := decode_bigRow gigabyte ⟨fun _ => [], fun _ => []⟩
    exact never _ _ _ _ _ (short_bigRow gigabyte) panics

end Apitap.Pgo
