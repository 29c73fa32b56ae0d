import NestedViews.Proofs.Calendar.Instants
import NestedViews.Proofs.Value.Coercion

namespace NestedViews.Value

open Calendar Text

variable {v : Value} {type : ValueType}

/-- A value whose text is read: every integer and truth value, a date of the years that the calendar
ends at, and an instant of a year with four digits. -/
def Legible : Value → Prop
  | .int64 _ => True
  | .bool _ => True
  | .date days => InYears (-262143) 262142 days.toInt
  | .timestamp micros => InYears 0 9999 (micros.toInt / 86400000000)
  | _ => False

/-- What becomes of a value of a type that is made a text, and of the text that is made a value of
the type again. -/
structure ReadsBack (v : Value) (type : ValueType) : Prop where
  written : v.coerce .string = .ok (.string v.text)
  read : v.Legible → (string v.text).coerce type = .ok v
  refused : ¬v.Legible → (string v.text).coerce type =
    .error (.typeMismatch type.name ValueType.string.name s!"cannot coerce {v.text}")
  signed {days : Int32} {d : Civil} : v = .date days → v.Legible → d.isValid →
    d.toDays = days.toInt → ShowsSign v.text.toList d.year

theorem trim_text (h : ∀ c ∈ v.chars, isBlank c = false) : trim v.text.toList = v.chars := by
  rw [text, String.toList_ofList, trim_eq_self h]

theorem parse?_int64 (n : Int64) : parse? (int64 n).text .int64 = some (.int64 n) := by
  have htrim : trim (int64 n).text.toList = signedDigits n.toInt :=
    trim_text fun _ hc => isBlank_of_mem_signedDigits hc
  have hword : int64? n.toInt = some n := int64?_eq_some_iff.mpr rfl
  simp only [parse?, htrim, readInt?_signedDigits, Option.bind_some, hword, Option.map_some]

theorem parse?_bool (b : Bool) : parse? (bool b).text .bool = some (.bool b) := by
  cases b <;> rfl

section Dates

variable {days : Int32}

theorem isBlank_of_mem_dateText {days : ℤ} {c : Char} (h : c ∈ dateText days) :
    isBlank c = false := by
  unfold dateText at h
  split at h
  · exact isBlank_of_mem_write h
  · exact isBlank_of_mem_signedDigits h

theorem parse?_date_eq (days : Int32) : parse? (date days).text .date =
    (Civil.read? (dateText days.toInt)).map fun d => .date (.ofInt d.toDays) := by
  have htrim : trim (date days).text.toList = dateText days.toInt :=
    trim_text fun _ hc => isBlank_of_mem_dateText hc
  rw [parse?, htrim]

theorem parse?_date (h : (date days).Legible) :
    parse? (date days).text .date = some (.date days) := by
  obtain ⟨hfirst, hlast⟩ := inYears_iff.mp h
  rw [parse?_date_eq, dateText, if_pos (inRange_iff.mpr h),
    read?_write (isValid_ofDays _) hfirst hlast, Option.map_some, toDays_ofDays, Int32.ofInt_toInt]

theorem parse?_date_eq_none (h : ¬(date days).Legible) :
    parse? (date days).text .date = none := by
  rw [parse?_date_eq, dateText, if_neg (mt inRange_iff.mp h), read?_signedDigits, Option.map_none]

theorem showsSign_date {d : Civil} (h : (date days).Legible) (hvalid : d.isValid)
    (hdays : d.toDays = days.toInt) : ShowsSign (date days).text.toList d.year := by
  rw [text, String.toList_ofList, chars, dateText, if_pos (inRange_iff.mpr h), ← hdays,
    Civil.ofDays_toDays hvalid]
  exact showsSign_write d

end Dates

section Timestamps

variable {micros : Int64}

theorem isBlank_of_mem_timestampText {micros : ℤ} {c : Char} (h : c ∈ timestampText micros) :
    isBlank c = false := by
  unfold timestampText at h
  split at h
  · exact isBlank_of_mem_writeInstant h
  · exact isBlank_of_mem_signedDigits h

theorem parse?_timestamp_eq (micros : Int64) : parse? (timestamp micros).text .timestamp =
    (readInstant? (timestampText micros.toInt)).map fun micros => .timestamp (.ofInt micros) := by
  have htrim : trim (timestamp micros).text.toList = timestampText micros.toInt :=
    trim_text fun _ hc => isBlank_of_mem_timestampText hc
  rw [parse?, htrim]

theorem parse?_timestamp (h : (timestamp micros).Legible) :
    parse? (timestamp micros).text .timestamp = some (.timestamp micros) := by
  have hyears : InYears 0 9999 (dayOf micros.toInt) := h
  have hrange : inRange (dayOf micros.toInt) :=
    inRange_iff.mpr (hyears.mono (by decide) (by decide))
  rw [parse?_timestamp_eq, timestampText, if_pos hrange, readInstant?_writeInstant hyears,
    Option.map_some, Int64.ofInt_toInt]

theorem parse?_timestamp_eq_none (h : ¬(timestamp micros).Legible) :
    parse? (timestamp micros).text .timestamp = none := by
  rw [parse?_timestamp_eq]
  unfold timestampText
  split
  · rw [readInstant?_writeInstant_eq_none h, Option.map_none]
  · rw [readInstant?_signedDigits, Option.map_none]

end Timestamps

theorem readsBack (hv : v.type? = some type) (htype : type ≠ .string)
    (hread : v.Legible → parse? v.text type = some v)
    (hrefused : ¬v.Legible → parse? v.text type = none) : v.ReadsBack type where
  written := (coerce_eq_ok_iff hv htype).mpr rfl
  read h := by
    rw [coerce_eq_ok_iff rfl htype.symm, convert?_string htype.symm]
    exact hread h
  refused h := by
    have hnone : (string v.text).convert? type = none :=
      (convert?_string htype.symm).trans (hrefused h)
    rw [coerce_eq_mismatch rfl htype.symm hnone, text, chars, String.ofList_toList]
  signed := by
    rintro days d rfl
    exact showsSign_date

/-- An integer, a truth value, a date or a timestamp that is made a text is read back from it, or
else the text is refused; it never comes back as another value. -/
theorem text_round_trip (hv : v.type? = some type)
    (htype : type ∈ [.int64, .bool, .date, .timestamp]) : v.ReadsBack type := by
  cases v with
  | int64 n =>
    cases hv
    exact readsBack rfl (by decide) (fun _ => parse?_int64 n) (absurd trivial)
  | bool b =>
    cases hv
    exact readsBack rfl (by decide) (fun _ => parse?_bool b) (absurd trivial)
  | date days =>
    cases hv
    exact readsBack rfl (by decide) parse?_date parse?_date_eq_none
  | timestamp micros =>
    cases hv
    exact readsBack rfl (by decide) parse?_timestamp parse?_timestamp_eq_none
  | float64 x =>
    cases hv
    exact absurd htype (by decide)
  | string s =>
    cases hv
    exact absurd htype (by decide)
  | null => cases hv

theorem text_round_trip_yearEnd : (date (-719529)).type? = some .date ∧
    ValueType.date ∈ [.int64, .bool, .date, .timestamp] ∧ (date (-719529)).ReadsBack .date ∧
    (date (-719529)).text = "-0001-12-31" :=
  ⟨rfl, by decide, text_round_trip rfl (by decide), by decide +kernel⟩

end NestedViews.Value
