import NestedViews.Calendar.Date
import NestedViews.Proofs.Calendar.Civil
import NestedViews.Proofs.Text.Digits

namespace NestedViews.Calendar

open Text

variable {n : ℕ} {year : ℤ} {c : Char} {cs rest : List Char} {d : Civil}

theorem readTwo?_paddedDigits (h : n < 100) :
    readTwo? (paddedDigits 2 n ++ rest) = some (n, rest) := by
  have hrun : ((paddedDigits 2 n ++ rest).take 2).takeWhile Char.isDigit = paddedDigits 2 n :=
    takeWhile_take_paddedDigits (by decide) h
  simp only [readTwo?, skipBlanks_paddedDigits, hrun, if_neg (paddedDigits_ne_nil 2 n),
    number_paddedDigits, List.drop_left]

theorem expect?_cons : expect? c (c :: rest) = some rest :=
  if_pos rfl

theorem expect?_eq_none (h : ∀ d ∈ cs.head?, d ≠ c) : expect? c cs = none := by
  cases cs with
  | nil => rfl
  | cons d cs => exact if_neg (h d rfl)

theorem readYear?_of_isDigit (h : c.isDigit) :
    readYear? (c :: cs) = some ((number (((c :: cs).take 4).takeWhile Char.isDigit) : ℤ),
      (c :: cs).drop (((c :: cs).take 4).takeWhile Char.isDigit).length) := by
  have hne : ((c :: cs).take 4).takeWhile Char.isDigit ≠ [] := by
    simp [List.takeWhile_cons_of_pos h]
  rw [readYear?, skipBlanks_cons (isBlank_eq_false_of_isDigit h)]
  split
  · rename_i heq
    cases heq
    cases h
  · rename_i heq
    cases heq
    cases h
  · rw [if_neg hne]

theorem readYear?_writeYear (h : ∀ c ∈ rest.head?, c.isDigit = false) :
    readYear? (writeYear year ++ rest) = some (year, rest) := by
  have hspan : spanDigits (paddedDigits 4 year.natAbs ++ rest) =
      (paddedDigits 4 year.natAbs, rest) :=
    spanDigits_append (fun c hc => isDigit_of_mem_paddedDigits hc) h
  have hne := paddedDigits_ne_nil 4 year.natAbs
  unfold writeYear
  split
  · rw [List.cons_append, readYear?, skipBlanks_cons rfl]
    simp only [hspan, if_neg hne, number_paddedDigits]
    rw [show -1 * (year.natAbs : ℤ) = year by omega]
  · split
    · rw [List.cons_append, readYear?, skipBlanks_cons rfl]
      simp only [hspan, if_neg hne, number_paddedDigits]
      rw [show 1 * (year.natAbs : ℤ) = year by omega]
    · have hrun : ((paddedDigits 4 year.natAbs ++ rest).take 4).takeWhile Char.isDigit =
          paddedDigits 4 year.natAbs := takeWhile_take_paddedDigits (by decide) (by omega)
      have hyear : (year.natAbs : ℤ) = year := by omega
      obtain ⟨c, cs, heq, hc⟩ := exists_paddedDigits_eq_cons 4 year.natAbs
      have hread := @readYear?_of_isDigit c (cs ++ rest) hc
      rwa [← List.cons_append, ← heq, hrun, number_paddedDigits, List.drop_left, hyear] at hread

theorem read?_write (hvalid : d.isValid) (hfirst : firstYear ≤ d.year) (hlast : d.year ≤ lastYear) :
    Civil.read? d.write = some d := by
  have hmonth := Civil.month_le hvalid
  have hday := Civil.day_le hvalid
  have hlastTwo : readTwo? (paddedDigits 2 d.day) = some (d.day, []) := by
    simpa using @readTwo?_paddedDigits d.day [] (by omega)
  have hyear : ∀ cs, readYear? (writeYear d.year ++ '-' :: cs) = some (d.year, '-' :: cs) :=
    fun cs => readYear?_writeYear (by rintro c ⟨⟩; rfl)
  have hmiddle : ∀ cs, readTwo? (paddedDigits 2 d.month ++ cs) = some (d.month, cs) :=
    fun cs => readTwo?_paddedDigits (by omega)
  simp [Civil.read?, Civil.write, hyear, expect?_cons, hmiddle, hlastTwo, hvalid, hfirst, hlast]

theorem read?_signedDigits (n : ℤ) : Civil.read? (signedDigits n) = none := by
  have hdigits : ∀ c ∈ digits n.natAbs, c ≠ '-' := by
    rintro c hc rfl
    cases isDigit_of_mem_digits hc
  have hyear : ∃ year rest, readYear? (signedDigits n) = some (year, rest) ∧
      ∀ c ∈ rest, c ≠ '-' := by
    unfold signedDigits
    split
    · have hspan : spanDigits (digits n.natAbs) = (digits n.natAbs, []) := by
        simpa using @spanDigits_append (digits n.natAbs) [] (fun c => isDigit_of_mem_digits)
          (by rintro c ⟨⟩)
      refine ⟨-1 * number (digits n.natAbs), [], ?_, by rintro c ⟨⟩⟩
      rw [readYear?, skipBlanks_cons rfl]
      simp only [hspan, if_neg (digits_ne_nil _)]
    · cases heq : digits n.natAbs with
      | nil => exact absurd heq (digits_ne_nil _)
      | cons c cs =>
        have hc : c.isDigit := isDigit_of_mem_digits (heq ▸ List.mem_cons_self)
        exact ⟨_, _, readYear?_of_isDigit hc, fun d hd => hdigits d (heq ▸ List.mem_of_mem_drop hd)⟩
  obtain ⟨year, rest, hread, hrest⟩ := hyear
  have hnone : expect? '-' rest = none :=
    expect?_eq_none fun c hc => hrest c (List.mem_of_mem_head? hc)
  simp [Civil.read?, hread, hnone]

theorem isBlank_of_mem_write (h : c ∈ d.write) : isBlank c = false := by
  have hyear : c ∈ writeYear d.year → isBlank c = false := by
    intro h
    unfold writeYear at h
    split at h
    · rcases List.mem_cons.mp h with rfl | h
      · rfl
      · exact isBlank_of_mem_paddedDigits h
    · split at h
      · rcases List.mem_cons.mp h with rfl | h
        · rfl
        · exact isBlank_of_mem_paddedDigits h
      · exact isBlank_of_mem_paddedDigits h
  simp only [Civil.write, List.mem_append, List.mem_cons] at h
  rcases h with h | rfl | h | rfl | h
  · exact hyear h
  · rfl
  · exact isBlank_of_mem_paddedDigits h
  · rfl
  · exact isBlank_of_mem_paddedDigits h

/-- A text begins with a sign just if the year is before 0 or after 9999. -/
def ShowsSign (cs : List Char) (year : ℤ) : Prop :=
  (cs.head? = some '-' ↔ year < 0) ∧ (cs.head? = some '+' ↔ 9999 < year)

theorem showsSign_write (d : Civil) : ShowsSign d.write d.year := by
  obtain ⟨c, cs, heq, hc⟩ := exists_paddedDigits_eq_cons 4 d.year.natAbs
  have hminus : c ≠ '-' := by
    rintro rfl
    cases hc
  have hplus : c ≠ '+' := by
    rintro rfl
    cases hc
  unfold ShowsSign Civil.write writeYear
  split
  · simp
    omega
  · split
    · simp
      omega
    · simp [heq, hminus, hplus]
      omega

end NestedViews.Calendar
