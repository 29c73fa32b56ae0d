import NestedViews.Calendar.Instant
import NestedViews.Proofs.Calendar.Dates

namespace NestedViews.Calendar

open Text

variable {n : ℕ} {micros : ℤ} {c : Char} {cs rest : List Char}

theorem readFraction?_paddedDigits (h : n < 1000000) :
    readFraction? ('.' :: (paddedDigits 6 n ++ ['Z'])) = some (n, ['Z']) := by
  have hspan : spanDigits (paddedDigits 6 n ++ ['Z']) = (paddedDigits 6 n, ['Z']) :=
    spanDigits_append (fun c hc => isDigit_of_mem_paddedDigits hc) (by rintro c ⟨⟩; rfl)
  have hcut : (paddedDigits 6 n ++ List.replicate 6 '0').take 6 = paddedDigits 6 n :=
    List.take_left' (length_paddedDigits (by decide) h)
  simp only [readFraction?, hspan, if_neg (paddedDigits_ne_nil 6 n), hcut, number_paddedDigits]

def timeOf (micros : ℕ) : TimeOfDay :=
  ⟨micros / microsPerSecond / 3600, micros / microsPerSecond / 60 % 60,
    micros / microsPerSecond % 60, micros % microsPerSecond⟩

theorem toMicros_timeOf (micros : ℕ) : (timeOf micros).toMicros = micros := by
  simp only [TimeOfDay.toMicros, timeOf, microsPerSecond]
  omega

theorem isValid_iff {t : TimeOfDay} :
    t.isValid ↔ t.hour < 24 ∧ t.minute < 60 ∧ t.second ≤ 60 := by
  simp [TimeOfDay.isValid, and_assoc]

theorem isValid_timeOf {micros : ℕ} (h : micros < microsPerDay) : (timeOf micros).isValid := by
  simp only [microsPerDay, microsPerSecond] at h
  simp only [isValid_iff, timeOf, microsPerSecond]
  omega

def fields (d : Civil) (t : TimeOfDay) : List Char :=
  paddedDigits 4 d.year.natAbs ++ '-' :: (paddedDigits 2 d.month ++ '-' ::
    (paddedDigits 2 d.day ++ 'T' :: (paddedDigits 2 t.hour ++ ':' ::
      (paddedDigits 2 t.minute ++ ':' :: (paddedDigits 2 t.second ++ '.' ::
        (paddedDigits 6 t.micros ++ ['Z']))))))

theorem writeInstant_eq_fields (h : InYears 0 9999 (dayOf micros)) : writeInstant micros =
    fields (Civil.ofDays (dayOf micros)) (timeOf (micros % microsPerDay).toNat) := by
  obtain ⟨hfirst, hlast⟩ := inYears_iff.mp h
  have hyear : writeYear (Civil.ofDays (dayOf micros)).year =
      paddedDigits 4 (Civil.ofDays (dayOf micros)).year.natAbs := by
    rw [writeYear, if_neg (by omega), if_neg (by omega)]
  rw [writeInstant, Civil.write, hyear, fields]
  simp [writeTime, timeOf]

theorem readInstant?_fields {d : Civil} {t : TimeOfDay} (hdate : d.isValid) (hfirst : 0 ≤ d.year)
    (hlast : d.year ≤ 9999) (htime : t.isValid) (hmicros : t.micros < 1000000) :
    readInstant? (fields d t) = some (d.toDays * microsPerDay + t.toMicros) := by
  have hfour : ∀ cs,
      takeDigits? 4 (paddedDigits 4 d.year.natAbs ++ cs) = some (d.year.natAbs, cs) :=
    fun cs => takeDigits?_paddedDigits (by decide) (by omega)
  have htwo : ∀ n < 100, ∀ cs, takeDigits? 2 (paddedDigits 2 n ++ cs) = some (n, cs) :=
    fun n hn cs => takeDigits?_paddedDigits (by decide) hn
  obtain ⟨hhour, hminute, hsecond⟩ := isValid_iff.mp htime
  have hmonth := htwo d.month ((Civil.month_le hdate).trans_lt (by decide))
  have hday := htwo d.day ((Civil.day_le hdate).trans_lt (by decide))
  have hhour := htwo t.hour (by omega)
  have hminute := htwo t.minute (by omega)
  have hsecond := htwo t.second (by omega)
  unfold readInstant? fields
  refine Option.bind_eq_some_iff.mpr ⟨_, hfour _, ?_⟩
  refine Option.bind_eq_some_iff.mpr ⟨_, expect?_cons, ?_⟩
  refine Option.bind_eq_some_iff.mpr ⟨_, hmonth _, ?_⟩
  refine Option.bind_eq_some_iff.mpr ⟨_, expect?_cons, ?_⟩
  refine Option.bind_eq_some_iff.mpr ⟨_, hday _, ?_⟩
  refine Option.bind_eq_some_iff.mpr ⟨_, rfl, ?_⟩
  refine Option.bind_eq_some_iff.mpr ⟨_, hhour _, ?_⟩
  refine Option.bind_eq_some_iff.mpr ⟨_, expect?_cons, ?_⟩
  refine Option.bind_eq_some_iff.mpr ⟨_, hminute _, ?_⟩
  refine Option.bind_eq_some_iff.mpr ⟨_, expect?_cons, ?_⟩
  refine Option.bind_eq_some_iff.mpr ⟨_, hsecond _, ?_⟩
  refine Option.bind_eq_some_iff.mpr ⟨_, readFraction?_paddedDigits hmicros, ?_⟩
  refine Option.bind_eq_some_iff.mpr ⟨0, rfl, ?_⟩
  dsimp only
  rw [Int.natAbs_of_nonneg hfirst, if_pos ⟨hdate, htime⟩, zero_mul, zero_mul, sub_zero]

theorem readInstant?_writeInstant (h : InYears 0 9999 (dayOf micros)) :
    readInstant? (writeInstant micros) = some micros := by
  obtain ⟨hfirst, hlast⟩ := inYears_iff.mp h
  have hlt : (micros % microsPerDay).toNat < microsPerDay := by
    rw [microsPerDay, microsPerSecond]
    omega
  rw [writeInstant_eq_fields h, readInstant?_fields (isValid_ofDays _) hfirst hlast
    (isValid_timeOf hlt) (Nat.mod_lt _ (by decide)), toDays_ofDays, toMicros_timeOf, dayOf,
    microsPerDay, microsPerSecond]
  congr 1
  omega

theorem readInstant?_eq_none
    (h : ∀ n rest, takeDigits? 4 cs = some (n, rest) → expect? '-' rest = none) :
    readInstant? cs = none := by
  cases hdigits : takeDigits? 4 cs with
  | none =>
    rw [readInstant?, hdigits]
    rfl
  | some found =>
    obtain ⟨year, rest⟩ := found
    unfold readInstant?
    rw [hdigits, Option.bind_eq_bind, Option.bind_some]
    dsimp only
    rw [h year rest hdigits]
    rfl

theorem readInstant?_of_not_isDigit (h : c.isDigit = false) : readInstant? (c :: cs) = none := by
  apply readInstant?_eq_none
  simp [takeDigits?, h]

/-- An instant of another year has a sign, which no instant is read with. -/
theorem readInstant?_writeInstant_eq_none (h : ¬InYears 0 9999 (dayOf micros)) :
    readInstant? (writeInstant micros) = none := by
  rw [inYears_iff] at h
  unfold writeInstant Civil.write writeYear
  split
  · exact readInstant?_of_not_isDigit rfl
  · rw [if_pos (by omega)]
    exact readInstant?_of_not_isDigit rfl

theorem readInstant?_signedDigits (n : ℤ) : readInstant? (signedDigits n) = none := by
  unfold signedDigits
  split
  · exact readInstant?_of_not_isDigit rfl
  · apply readInstant?_eq_none
    intro m rest hrest
    simp only [takeDigits?] at hrest
    split at hrest <;> cases hrest
    apply expect?_eq_none
    rintro c hc rfl
    cases isDigit_of_mem_digits (List.mem_of_mem_drop (List.mem_of_mem_head? hc))

theorem isBlank_of_mem_writeTime {micros : ℕ} (h : c ∈ writeTime micros) : isBlank c = false := by
  simp only [writeTime, List.mem_append, List.mem_cons] at h
  rcases h with ((h | rfl | h) | rfl | h) | rfl | h
  · exact isBlank_of_mem_paddedDigits h
  · rfl
  · exact isBlank_of_mem_paddedDigits h
  · rfl
  · exact isBlank_of_mem_paddedDigits h
  · rfl
  · exact isBlank_of_mem_paddedDigits h

theorem isBlank_of_mem_writeInstant (h : c ∈ writeInstant micros) : isBlank c = false := by
  simp only [writeInstant, List.mem_append, List.mem_cons, List.not_mem_nil, or_false] at h
  rcases h with (h | rfl | h) | rfl
  · exact isBlank_of_mem_write h
  · rfl
  · exact isBlank_of_mem_writeTime h
  · rfl

end NestedViews.Calendar
