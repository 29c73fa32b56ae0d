namespace NestedViews.Calendar

structure Civil where
  year : Int
  month : Nat
  day : Nat
  deriving DecidableEq, Repr, Inhabited

def isLeap (year : Int) : Bool :=
  year % 4 == 0 && (year % 100 != 0 || year % 400 == 0)

def monthLengths (year : Int) : List Nat :=
  [31, if isLeap year then 29 else 28, 31, 30, 31, 30, 31, 31, 30, 31, 30, 31]

def daysOf : List Nat → Nat
  | [] => 0
  | length :: lengths => length + daysOf lengths

def Civil.isValid (d : Civil) : Bool :=
  1 ≤ d.month && 1 ≤ d.day && d.day ≤ ((monthLengths d.year)[d.month - 1]?).getD 0

def daysBefore (year : Int) : Int :=
  365 * year + (year + 3) / 4 - (year + 99) / 100 + (year + 399) / 400

/-- Days from the first day of the year 0 to the first day of 1970. -/
def epoch : Int := 719528

def Civil.toDays (d : Civil) : Int :=
  daysBefore d.year + daysOf ((monthLengths d.year).take (d.month - 1)) + (d.day - 1) - epoch

/-- The year that a day falls in, counted from the first day of the year 0. The mean length of a
year gives it up to one. -/
def yearOf (day : Int) : Int :=
  let guess := day * 400 / 146097
  if day < daysBefore guess then guess - 1
  else if daysBefore (guess + 1) ≤ day then guess + 1
  else guess

theorem daysBefore_yearOf_le (day : Int) : daysBefore (yearOf day) ≤ day := by
  unfold yearOf daysBefore
  dsimp only
  split
  · omega
  · split <;> omega

theorem lt_daysBefore_yearOf (day : Int) : day < daysBefore (yearOf day + 1) := by
  unfold yearOf
  dsimp only
  split
  · rwa [Int.sub_add_cancel]
  · unfold daysBefore at *
    split <;> omega

theorem daysOf_monthLengths (year : Int) :
    (daysOf (monthLengths year) : Int) = daysBefore (year + 1) - daysBefore year := by
  unfold monthLengths isLeap daysBefore
  split <;> rename_i h <;> simp [daysOf] at h ⊢ <;> omega

def monthDay : List Nat → Nat → Nat × Nat
  | [], day => (0, day)
  | length :: lengths, day =>
    if day < length then (0, day)
    else ((monthDay lengths (day - length)).1 + 1, (monthDay lengths (day - length)).2)

theorem monthDay_eq {lengths : List Nat} {day : Nat} (h : day < daysOf lengths) :
    ∃ length, lengths[(monthDay lengths day).1]? = some length ∧
      (monthDay lengths day).2 < length ∧
      daysOf (lengths.take (monthDay lengths day).1) + (monthDay lengths day).2 = day := by
  induction lengths generalizing day with
  | nil => simp [daysOf] at h
  | cons length lengths ih =>
    unfold monthDay
    split
    · simpa [daysOf]
    · rw [daysOf] at h
      obtain ⟨l, hl, hlt, hsum⟩ := @ih (day - length) (by omega)
      exact ⟨l, by simpa using hl, hlt, by simp [daysOf]; omega⟩

def Civil.ofDays (days : Int) : Civil :=
  let day := days + epoch
  let year := yearOf day
  let (month, rest) := monthDay (monthLengths year) (day - daysBefore year).toNat
  ⟨year, month + 1, rest + 1⟩

theorem dayOfYear_lt (day : Int) :
    (day - daysBefore (yearOf day)).toNat < daysOf (monthLengths (yearOf day)) := by
  have := daysOf_monthLengths (yearOf day)
  have := lt_daysBefore_yearOf day
  have := daysBefore_yearOf_le day
  omega

@[simp] theorem toDays_ofDays (days : Int) : (Civil.ofDays days).toDays = days := by
  obtain ⟨_, _, _, h⟩ := monthDay_eq (dayOfYear_lt (days + epoch))
  have := daysBefore_yearOf_le (days + epoch)
  simp only [Civil.ofDays, Civil.toDays, Nat.add_sub_cancel]
  omega

theorem isValid_ofDays (days : Int) : (Civil.ofDays days).isValid := by
  obtain ⟨length, hl, hlt, _⟩ := monthDay_eq (dayOfYear_lt (days + epoch))
  simpa [Civil.isValid, Civil.ofDays, hl] using Nat.succ_le_of_lt hlt

/-- The first and the last year that dates are written in. -/
def firstYear : Int := -262143

def lastYear : Int := 262142

def inRange (days : Int) : Bool :=
  Civil.toDays ⟨firstYear, 1, 1⟩ ≤ days && days ≤ Civil.toDays ⟨lastYear, 12, 31⟩

end NestedViews.Calendar
