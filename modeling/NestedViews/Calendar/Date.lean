import NestedViews.Calendar.Civil
import NestedViews.Text.Blank
import NestedViews.Text.Digits

namespace NestedViews.Calendar

open Text

def writeYear (year : Int) : List Char :=
  if year < 0 then '-' :: paddedDigits 4 year.natAbs
  else if 9999 < year then '+' :: paddedDigits 4 year.natAbs
  else paddedDigits 4 year.natAbs

def Civil.write (d : Civil) : List Char :=
  writeYear d.year ++ '-' :: (paddedDigits 2 d.month ++ '-' :: paddedDigits 2 d.day)

def readTwo? (cs : List Char) : Option (Nat × List Char) :=
  let ds := ((skipBlanks cs).take 2).takeWhile Char.isDigit
  if ds = [] then none else some (number ds, (skipBlanks cs).drop ds.length)

/-- Reads a year, with blanks before it: any number of digits after a sign, else at most four. -/
def readYear? (cs : List Char) : Option (Int × List Char) :=
  let signed (sign : Int) (rest : List Char) :=
    let (ds, rest) := spanDigits rest
    if ds = [] then none else some (sign * number ds, rest)
  match skipBlanks cs with
  | '-' :: rest => signed (-1) rest
  | '+' :: rest => signed 1 rest
  | rest =>
    let ds := (rest.take 4).takeWhile Char.isDigit
    if ds = [] then none else some (number ds, rest.drop ds.length)

def expect? (c : Char) : List Char → Option (List Char)
  | [] => none
  | d :: rest => if d = c then some rest else none

def Civil.read? (cs : List Char) : Option Civil := do
  let (year, cs) ← readYear? cs
  let cs ← expect? '-' cs
  let (month, cs) ← readTwo? cs
  let cs ← expect? '-' cs
  let (day, cs) ← readTwo? cs
  let date : Civil := ⟨year, month, day⟩
  if cs = [] ∧ date.isValid ∧ firstYear ≤ year ∧ year ≤ lastYear then some date else none

end NestedViews.Calendar
