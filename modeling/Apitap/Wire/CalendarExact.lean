import Apitap.Wire.BinlogTime
import Apitap.Wire.CalendarText
import Apitap.Wire.MyTsv

/-!
# The calendar of every path

A date or a timestamp of the replication stream prints as the text of its day or instant, the
loader's text is refused outside the years MySQL has and nowhere else, the copies of the
conversion agree, and the times and dates of the binlog decode to their texts.
-/

namespace Apitap

open Foundation Decimal Calendar
open Copy (fromBe fromBeInt pgEpochDays pgEpochMicros)

namespace Copy

theorem fromBeInt_bounds (f : Bytes) {w : Nat} (len : f.length = w + 1) :
    -(128 * 256 ^ w : Int) ≤ fromBeInt f ∧ fromBeInt f < 128 * 256 ^ w := by
  have positive : 0 < 256 ^ w := Nat.pow_pos (by decide)
  have word : ((256 ^ (w + 1) : Nat) : Int) = 256 * 256 ^ w := by
    push_cast
    ring
  have low := Int.le_bmod (x := fromBe f) (m := 256 ^ (w + 1)) (Nat.pow_pos (by decide))
  have high := Int.bmod_lt (x := fromBe f) (m := 256 ^ (w + 1)) (Nat.pow_pos (by decide))
  rw [fromBeInt, len]
  rw [word] at low high
  omega

end Copy

namespace MyTsv

variable {f : Bytes}

/-- The day of a date field. -/
def fieldDay (f : Bytes) : Int := fromBeInt f + pgEpochDays

/-- The microsecond of a timestamp field. -/
def fieldMicros (f : Bytes) : Int := fromBeInt f + pgEpochMicros

/-- The years of MySQL's dates. -/
def InYears (d : Date) : Prop := 1000 ≤ d.year ∧ d.year ≤ 9999

instance (d : Date) : Decidable (InYears d) := inferInstanceAs (Decidable (_ ∧ _))

theorem checkYear_eq (name : String) (d : Date) : checkYear name d.year =
    if InYears d then .ok () else .error (.err (outsideYears name d.year)) := rfl

theorem renderDate_eq (name : String) (len : f.length = 4) : renderDate name f =
    if InYears (civil (fieldDay f)) then .ok (pushDate (civil (fieldDay f)))
    else .error (.err (outsideYears name (civil (fieldDay f)).year)) := by
  have bounds := Copy.fromBeInt_bounds f len
  obtain ⟨day, day_is⟩ : ∃ day, fieldDay f = day := ⟨_, rfl⟩
  have whole : fromBeInt f + pgEpochDays = day := day_is
  have low : -2 ^ 60 ≤ day ∧ day < 2 ^ 60 := by
    rw [pgEpochDays] at whole
    omega
  rw [renderDate, if_neg (not_not_intro len), whole, day_is,
    Days.checked_small (by omega) (by omega), Stop.orPanic_some, Stop.ok_bind, civilFromDays,
    Days.civilWith_eq (by decide) low.1 low.2, Stop.orPanic_some, Stop.ok_bind, checkYear_eq]
  by_cases inside : InYears (civil day)
  · rw [if_pos inside, if_pos inside, Except.map]
  · rw [if_neg inside, if_neg inside, Except.map]

/-- A timestamp past the last microsecond is in no year MySQL has. -/
theorem not_inYears {us : Int} (past : 2 ^ 63 ≤ us) : ¬ InYears (civil (us / 86400000000)) := by
  obtain ⟨valid, number⟩ := civil_spec (us / 86400000000)
  have years := valid.number_bounds
  rw [number] at years
  rw [InYears]
  omega

theorem renderTs_eq (name : String) (len : f.length = 8) : renderTs name f =
    if InYears (civil (fieldMicros f / 86400000000)) then
      .ok (pushDate (civil (fieldMicros f / 86400000000)) ++
        32 :: pushTime (fieldMicros f % 86400000000).toNat)
    else if fieldMicros f < 2 ^ 63 then
      .error (.err (outsideYears name (civil (fieldMicros f / 86400000000)).year))
    else .error (.err (bad name "timestamp range")) := by
  have bounds := Copy.fromBeInt_bounds f len
  have whole : fromBeInt f + pgEpochMicros = fieldMicros f := rfl
  rw [renderTs, if_neg (not_not_intro len), whole]
  by_cases fits : fieldMicros f < 2 ^ 63
  · have checks : checked 64 (fieldMicros f) = some (fieldMicros f) :=
      checked_of_fits ⟨by rw [fieldMicros, pgEpochMicros]; norm_num; omega, fits⟩
    rw [checks, Stop.orErr_some, Stop.ok_bind, civilFromDays,
      Days.civilWith_eq (by decide) (by rw [fieldMicros, pgEpochMicros]; omega) (by omega),
      Stop.orPanic_some, Stop.ok_bind, checkYear_eq, if_pos fits]
    by_cases inside : InYears (civil (fieldMicros f / 86400000000))
    · rw [if_pos inside, if_pos inside, Except.map]
    · rw [if_neg inside, if_neg inside, Except.map]
  · have checks : checked 64 (fieldMicros f) = none :=
      if_neg fun both => fits both.2
    rw [checks, Stop.orErr_none, if_neg (not_inYears (Int.not_lt.mp fits)), if_neg fits]
    rfl

end MyTsv

namespace Days

/-- Every day a caller passes is of 64 bits less four: an `i32` day, or the day of an `i64`
microsecond or of a `u32` second. -/
theorem copies_agree {z : Int} (low : -2 ^ 60 ≤ z) (high : z < 2 ^ 60) :
    BinDec.civilFromDays z = some (civil z) ∧ MyTsv.civilFromDays z = some (civil z) ∧
      civilBinlog z = some (civil z) :=
  ⟨civilWith_eq (by decide) low high, civilWith_eq (by decide) low high, civilBinlog_eq low high⟩

end Days

namespace Rows

variable {floats : Floats} {c : ColDef}

theorem decodeCell_time {v : Time} (kind : c.kind = .time2) (fsp : c.metadata = v.fraction.fsp) :
    (decodeCell floats c).Reads v.packed v.text := by
  have digits := v.fraction.fsp_le
  rw [decodeCell, kind, fsp]
  show (time2 (v.fraction.fsp % 256)).Reads _ _
  rw [Nat.mod_eq_of_lt (by omega)]
  exact v.time_reads

theorem decodeCell_datetime {v : Datetime} (kind : c.kind = .datetime2)
    (fsp : c.metadata = v.fraction.fsp) : (decodeCell floats c).Reads v.packed v.text := by
  have digits := v.fraction.fsp_le
  rw [decodeCell, kind, fsp]
  show (datetime2 (v.fraction.fsp % 256)).Reads _ _
  rw [Nat.mod_eq_of_lt (by omega)]
  exact v.datetime_reads

theorem decodeCell_timestamp {v : Timestamp} (kind : c.kind = .timestamp2)
    (fsp : c.metadata = v.fraction.fsp) : (decodeCell floats c).Reads v.packed v.text := by
  have digits := v.fraction.fsp_le
  rw [decodeCell, kind, fsp]
  show (timestamp2 (v.fraction.fsp % 256)).Reads _ _
  rw [Nat.mod_eq_of_lt (by omega)]
  exact v.timestamp_reads

end Rows

namespace Days

/-- Every date and timestamp but the infinities prints as the text of its day or instant, the
copies of the conversion agree, the loader refuses the years it has to and no other, and the
times and dates of the binlog decode to their texts. -/
theorem calendar_is_exact :
    (∀ days : Int, -2 ^ 31 < days → days < 2 ^ 31 - 1 →
      ∃ text, BinDec.date days = some text ∧ BinDec.parseDate text = some (days + 10957)) ∧
    (∀ (t : Int) (tz : Bool), -2 ^ 63 < t → t < 2 ^ 63 - 1 →
      ∃ text, BinDec.timestamp t tz = some text ∧
        BinDec.parseTimestamp tz text = some (t + 946684800000000)) ∧
    (∀ z : Int, -2 ^ 60 ≤ z → z < 2 ^ 60 →
      BinDec.civilFromDays z = some (civil z) ∧ MyTsv.civilFromDays z = some (civil z) ∧
        civilBinlog z = some (civil z)) ∧
    (∀ (name : String) (f : Bytes), f.length = 4 →
      ((∃ text, MyTsv.renderDate name f = .ok text) ↔ MyTsv.InYears (civil (MyTsv.fieldDay f))) ∧
        MyTsv.renderDate name f ≠ .error .panic) ∧
    (∀ (name : String) (f : Bytes), f.length = 8 →
      ((∃ text, MyTsv.renderTs name f = .ok text) ↔
        MyTsv.InYears (civil (MyTsv.fieldMicros f / 86400000000))) ∧
          MyTsv.renderTs name f ≠ .error .panic) ∧
    (∀ (floats : Floats) (c : Rows.ColDef) (v : Rows.Time), c.kind = .time2 →
      c.metadata = v.fraction.fsp → (Rows.decodeCell floats c).Reads v.packed v.text) ∧
    (∀ (floats : Floats) (c : Rows.ColDef) (v : Rows.Datetime), c.kind = .datetime2 →
      c.metadata = v.fraction.fsp → (Rows.decodeCell floats c).Reads v.packed v.text) ∧
    ∀ (floats : Floats) (c : Rows.ColDef) (v : Rows.Timestamp), c.kind = .timestamp2 →
      c.metadata = v.fraction.fsp → (Rows.decodeCell floats c).Reads v.packed v.text := by
  refine ⟨fun _ => BinDec.date_parses, fun _ tz => BinDec.timestamp_parses tz,
    fun _ => copies_agree,
    fun name f len => ?_, fun name f len => ?_, fun _ _ _ => Rows.decodeCell_time,
    fun _ _ _ => Rows.decodeCell_datetime, fun _ _ _ => Rows.decodeCell_timestamp⟩
  · rw [MyTsv.renderDate_eq name len]
    split
    case isTrue inside => exact ⟨⟨fun _ => inside, fun _ => ⟨_, rfl⟩⟩, nofun⟩
    case isFalse outside => exact ⟨⟨nofun, fun inside => absurd inside outside⟩, nofun⟩
  · rw [MyTsv.renderTs_eq name len]
    split
    case isTrue inside => exact ⟨⟨fun _ => inside, fun _ => ⟨_, rfl⟩⟩, nofun⟩
    case isFalse outside =>
        split
        · exact ⟨⟨nofun, fun inside => absurd inside outside⟩, nofun⟩
        · exact ⟨⟨nofun, fun inside => absurd inside outside⟩, nofun⟩

/-- A second and a half below zero. -/
def beforeMidnight : Rows.Time where
  neg := true
  hour := 0
  minute := 0
  second := 1
  fraction := ⟨1, 500000, by decide, by decide, by decide⟩
  hour_le := by decide
  minute_lt := by decide
  second_lt := by decide
  zero := by decide

theorem calendar_is_exact_samples :
    (∃ text, BinDec.date (-730426) = some text ∧ BinDec.parseDate text = some (-719469)) ∧
    (∃ text, BinDec.timestamp (-1) true = some text ∧
      BinDec.parseTimestamp true text = some 946684799999999) ∧
    civilBinlog (-719469) = some (civil (-719469)) ∧
    MyTsv.renderDate "d" [0, 0, 0, 0] ≠ .error .panic ∧
    MyTsv.renderTs "t" [0, 0, 0, 0, 0, 0, 0, 0] ≠ .error .panic ∧
    (Rows.decodeCell ⟨fun _ => [], fun _ => []⟩ ⟨.time2, 1, false, false, false, none⟩).Reads
      beforeMidnight.packed beforeMidnight.text := by
  obtain ⟨dates, timestamps, copies, loaderDates, loaderTimestamps, times, -, -⟩ :=
    calendar_is_exact
  exact ⟨dates _ (by decide) (by decide), timestamps _ true (by decide) (by decide),
    (copies _ (by decide) (by decide)).2.2, (loaderDates "d" _ rfl).2,
      (loaderTimestamps "t" _ rfl).2,
    times _ _ beforeMidnight rfl rfl⟩

end Days

end Apitap
