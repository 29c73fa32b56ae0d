import Mathlib
import NestedViews.Calendar.Civil

namespace NestedViews.Calendar

theorem daysBefore_le {y z : ℤ} (h : y ≤ z) : daysBefore y ≤ daysBefore z := by
  unfold daysBefore
  omega

theorem yearOf_eq {day year : ℤ} (hfirst : daysBefore year ≤ day)
    (hnext : day < daysBefore (year + 1)) : yearOf day = year := by
  have hle := daysBefore_yearOf_le day
  have hlt := lt_daysBefore_yearOf day
  rcases lt_trichotomy (yearOf day) year with h | h | h
  · have := daysBefore_le (Int.add_one_le_of_lt h)
    omega
  · exact h
  · have := daysBefore_le (Int.add_one_le_of_lt h)
    omega

theorem monthDay_daysOf {lengths : List ℕ} {month length day : ℕ}
    (hmonth : lengths[month]? = some length) (hday : day < length) :
    monthDay lengths (daysOf (lengths.take month) + day) = (month, day) := by
  induction lengths generalizing month with
  | nil => simp at hmonth
  | cons first rest ih =>
    cases month with
    | zero =>
      cases hmonth
      rw [List.take_zero, daysOf, Nat.zero_add, monthDay, if_pos hday]
    | succ month =>
      have hdays : daysOf ((first :: rest).take (month + 1)) + day - first =
          daysOf (rest.take month) + day := by
        rw [List.take_succ_cons, daysOf]
        omega
      rw [monthDay, if_neg, hdays, ih hmonth]
      rw [List.take_succ_cons, daysOf]
      omega

theorem daysOf_take_add_lt {lengths : List ℕ} {month length day : ℕ}
    (hmonth : lengths[month]? = some length) (hday : day < length) :
    daysOf (lengths.take month) + day < daysOf lengths := by
  induction lengths generalizing month with
  | nil => simp at hmonth
  | cons first rest ih =>
    cases month with
    | zero =>
      cases hmonth
      rw [List.take_zero, daysOf, daysOf]
      omega
    | succ month =>
      rw [List.take_succ_cons, daysOf, daysOf, Nat.add_assoc]
      exact Nat.add_lt_add_left (ih hmonth) first

namespace Civil

variable {d : Civil}

theorem exists_length (h : d.isValid) : 1 ≤ d.month ∧ 1 ≤ d.day ∧
    ∃ length, (monthLengths d.year)[d.month - 1]? = some length ∧ d.day - 1 < length := by
  simp only [isValid, Bool.and_eq_true, decide_eq_true_eq] at h
  obtain ⟨⟨hmonth, hday⟩, hlength⟩ := h
  cases hget : (monthLengths d.year)[d.month - 1]? with
  | none =>
    rw [hget, Option.getD_none] at hlength
    omega
  | some length =>
    rw [hget, Option.getD_some] at hlength
    exact ⟨hmonth, hday, length, rfl, by omega⟩

theorem month_le (h : d.isValid) : d.month ≤ 12 := by
  obtain ⟨_, _, length, hlength, _⟩ := exists_length h
  have hlt := (List.getElem?_eq_some_iff.mp hlength).1
  rw [show (monthLengths d.year).length = 12 from rfl] at hlt
  omega

theorem length_le {year : ℤ} {length : ℕ} (h : length ∈ monthLengths year) : length ≤ 31 := by
  unfold monthLengths at h
  split at h <;> simp at h <;> omega

theorem day_le (h : d.isValid) : d.day ≤ 31 := by
  obtain ⟨_, _, length, hlength, hday⟩ := exists_length h
  have hle := length_le (List.mem_of_getElem? hlength)
  omega

theorem ofDays_toDays (h : d.isValid) : Civil.ofDays d.toDays = d := by
  obtain ⟨hmonth, hday, length, hlength, hlt⟩ := exists_length h
  have hdays := daysOf_take_add_lt hlength hlt
  have hyear := daysOf_monthLengths d.year
  have heq : yearOf (d.toDays + epoch) = d.year := by
    apply yearOf_eq
    · unfold toDays
      omega
    · unfold toDays
      omega
  have hrest : (d.toDays + epoch - daysBefore d.year).toNat =
      daysOf ((monthLengths d.year).take (d.month - 1)) + (d.day - 1) := by
    unfold toDays
    omega
  simp only [ofDays, heq, hrest, monthDay_daysOf hlength hlt]
  rw [Nat.sub_add_cancel hmonth, Nat.sub_add_cancel hday]

end Civil

def InYears (first last days : ℤ) : Prop :=
  ∃ d : Civil, d.isValid ∧ d.toDays = days ∧ first ≤ d.year ∧ d.year ≤ last

theorem inYears_iff {first last days : ℤ} : InYears first last days ↔
    first ≤ (Civil.ofDays days).year ∧ (Civil.ofDays days).year ≤ last := by
  constructor
  · rintro ⟨d, hvalid, rfl, hyears⟩
    rwa [Civil.ofDays_toDays hvalid]
  · intro hyears
    exact ⟨Civil.ofDays days, isValid_ofDays days, toDays_ofDays days, hyears⟩

theorem InYears.mono {first last first' last' days : ℤ} (h : InYears first last days)
    (hfirst : first' ≤ first) (hlast : last ≤ last') : InYears first' last' days := by
  obtain ⟨d, hvalid, hdays, hyears⟩ := h
  exact ⟨d, hvalid, hdays, hfirst.trans hyears.1, hyears.2.trans hlast⟩

theorem le_yearOf_iff {year day : ℤ} : year ≤ yearOf day ↔ daysBefore year ≤ day := by
  constructor
  · intro h
    exact (daysBefore_le h).trans (daysBefore_yearOf_le day)
  · intro h
    by_contra hlt
    have hle := daysBefore_le (Int.add_one_le_of_lt (not_le.mp hlt))
    have hnext := lt_daysBefore_yearOf day
    omega

theorem inRange_iff {days : ℤ} : inRange days ↔ InYears firstYear lastYear days := by
  have hyear : (Civil.ofDays days).year = yearOf (days + epoch) := rfl
  have hfirst : Civil.toDays ⟨firstYear, 1, 1⟩ = daysBefore firstYear - epoch := by decide
  have hlast : Civil.toDays ⟨lastYear, 12, 31⟩ = daysBefore (lastYear + 1) - 1 - epoch := by decide
  have hnext : (Civil.ofDays days).year ≤ lastYear ↔ days + epoch < daysBefore (lastYear + 1) := by
    rw [hyear, ← not_le, ← le_yearOf_iff, not_le, Int.lt_add_one_iff]
  rw [inYears_iff, hnext, hyear, le_yearOf_iff, inRange, hfirst, hlast, Bool.and_eq_true,
    decide_eq_true_eq, decide_eq_true_eq]
  omega

end NestedViews.Calendar
