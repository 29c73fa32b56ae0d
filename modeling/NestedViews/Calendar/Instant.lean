import NestedViews.Calendar.Date

/-! Instants as text: a date, a time of day and an offset from universal time. An instant is a
number of microseconds since the first day of 1970 began. -/

namespace NestedViews.Calendar

open Text

def microsPerSecond : Nat := 1000000

def microsPerDay : Nat := 86400 * microsPerSecond

def dayOf (micros : Int) : Int :=
  micros / microsPerDay

def writeTime (micros : Nat) : List Char :=
  let seconds := micros / microsPerSecond
  paddedDigits 2 (seconds / 3600) ++ ':' :: paddedDigits 2 (seconds / 60 % 60) ++
    ':' :: paddedDigits 2 (seconds % 60) ++ '.' :: paddedDigits 6 (micros % microsPerSecond)

def writeInstant (micros : Int) : List Char :=
  (Civil.ofDays (dayOf micros)).write ++
    'T' :: writeTime (micros % microsPerDay).toNat ++ ['Z']

/-- A time of day as it is written. Any minute may have a second 60, a leap second, which counts
like the first second of the next minute. -/
structure TimeOfDay where
  hour : Nat
  minute : Nat
  second : Nat
  micros : Nat
  deriving DecidableEq, Repr

namespace TimeOfDay

def isValid (t : TimeOfDay) : Bool :=
  t.hour < 24 && t.minute < 60 && t.second ≤ 60

def toMicros (t : TimeOfDay) : Nat :=
  ((t.hour * 60 + t.minute) * 60 + t.second) * microsPerSecond + t.micros

end TimeOfDay

def readFraction? : List Char → Option (Nat × List Char)
  | '.' :: cs =>
    let (ds, rest) := spanDigits cs
    if ds = [] then none else some (number ((ds ++ List.replicate 6 '0').take 6), rest)
  | cs => some (0, cs)

def readOffset? : List Char → Option Int
  | [c] => if c = 'Z' ∨ c = 'z' then some 0 else none
  | c :: cs => do
    let sign : Int ← if c = '+' then some 1 else if c = '-' ∨ c = '\u2212' then some (-1) else none
    let (hours, cs) ← takeDigits? 2 cs
    let cs ← expect? ':' cs
    let (minutes, cs) ← takeDigits? 2 cs
    if cs = [] ∧ hours < 24 ∧ minutes < 60 then some (sign * (hours * 60 + minutes)) else none
  | [] => none

def readSeparator? : List Char → Option (List Char)
  | c :: cs => if c = 'T' ∨ c = 't' ∨ c = ' ' then some cs else none
  | [] => none

/-- Reads an instant. Every number has a fixed width, so the year has four digits and no sign. -/
def readInstant? (cs : List Char) : Option Int := do
  let (year, cs) ← takeDigits? 4 cs
  let cs ← expect? '-' cs
  let (month, cs) ← takeDigits? 2 cs
  let cs ← expect? '-' cs
  let (day, cs) ← takeDigits? 2 cs
  let cs ← readSeparator? cs
  let (hour, cs) ← takeDigits? 2 cs
  let cs ← expect? ':' cs
  let (minute, cs) ← takeDigits? 2 cs
  let cs ← expect? ':' cs
  let (second, cs) ← takeDigits? 2 cs
  let (micros, cs) ← readFraction? cs
  let offset ← readOffset? cs
  let date : Civil := ⟨year, month, day⟩
  let time : TimeOfDay := ⟨hour, minute, second, micros⟩
  if date.isValid ∧ time.isValid then
    some (date.toDays * microsPerDay + time.toMicros - offset * 60 * microsPerSecond)
  else none

end NestedViews.Calendar
