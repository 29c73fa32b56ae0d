import NestedViews.Binary64.Rounding
import NestedViews.Binary64.Shortest
import NestedViews.Text.Digits

/-! Floating point numbers as text. They are written with the fewest digits that identify them and
never with an exponent; they are read from any decimal notation, rounded to the nearest. -/

namespace NestedViews.Binary64

open Text

def Decimal.positional (d : Decimal) : List Char :=
  let ds := Text.digits d.digits
  let places := (-d.exponent).toNat
  if 0 ≤ d.exponent then ds ++ List.replicate d.exponent.toNat '0'
  else if places < ds.length then ds.take (ds.length - places) ++ '.' :: ds.drop (ds.length - places)
  else '0' :: '.' :: (List.replicate (places - ds.length) '0' ++ ds)

def write (x : Binary64) : List Char :=
  let sign (negative : Bool) : List Char := if negative then ['-'] else []
  match x.toNumber with
  | .nan => "NaN".toList
  | .infinite negative => sign negative ++ "inf".toList
  | .finite negative mantissa exponent =>
    sign negative ++ if mantissa = 0 then ['0'] else (shortest mantissa exponent).positional

def readPoint? (cs : List Char) : Option (Nat × Nat × List Char) :=
  let (whole, rest) := spanDigits cs
  let (part, rest) := match rest with
    | '.' :: tail => spanDigits tail
    | _ => ([], rest)
  if whole ++ part = [] then none else some (number (whole ++ part), part.length, rest)

def readExponent? : List Char → Option Int
  | [] => some 0
  | c :: cs => if c = 'e' ∨ c = 'E' then readInt? cs else none

def readDecimal? (negative : Bool) (cs : List Char) : Option Binary64 := do
  let (mantissa, places, rest) ← readPoint? cs
  let exponent ← readExponent? rest
  return ofDecimal negative mantissa (exponent - places)

/-- Reads a number: decimal notation, or in any case of letters `inf`, `infinity` and `nan`, with
at most one sign in front. -/
def read? (cs : List Char) : Option Binary64 :=
  let (negative, unsigned) := splitSign cs
  let word := String.ofList (unsigned.map Char.toLower)
  if word = "inf" ∨ word = "infinity" then some (infinity negative)
  else if word = "nan" then some (nan negative)
  else readDecimal? negative unsigned

end NestedViews.Binary64
