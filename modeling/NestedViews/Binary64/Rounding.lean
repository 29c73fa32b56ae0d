import NestedViews.Binary64.Basic

namespace NestedViews.Binary64

def roundDiv (num den : Nat) : Nat :=
  let quotient := num / den
  let twice := 2 * (num % den)
  if twice < den then quotient
  else if den < twice then quotient + 1
  else quotient + quotient % 2

def floorLog2 (num den : Nat) : Int :=
  let guess : Int := num.log2 - den.log2
  if den * Nat.pow 2 guess.toNat ≤ num * Nat.pow 2 (-guess).toNat then guess else guess - 1

/-- The number nearest to `± num / den`. A fraction that rounds beyond the largest finite number
becomes infinite. The bits below the sign are `(exponent + 1074) · 2 ^ 52 + mantissa` with and
without the leading mantissa bit, so a mantissa rounded up to `2 ^ 53` carries into the exponent. -/
def nearest (negative : Bool) (num den : Nat) : Binary64 :=
  if num = 0 then ofMagnitude negative 0
  else
    let exponent := max (floorLog2 num den - 52) (-1074)
    let mantissa := roundDiv (num * Nat.pow 2 (-exponent).toNat) (den * Nat.pow 2 exponent.toNat)
    let magnitude := (exponent + 1074).toNat * Nat.pow 2 52 + mantissa
    ofMagnitude negative (min magnitude (2047 * Nat.pow 2 52))

def ofInt (n : Int) : Binary64 :=
  nearest (n < 0) n.natAbs 1

def ofDecimal (negative : Bool) (mantissa : Nat) (exponent : Int) : Binary64 :=
  let size : Int := exponent + (Nat.toDigits 10 mantissa).length
  if mantissa = 0 ∨ size < -330 then ofMagnitude negative 0
  else if 310 < size then infinity negative
  else nearest negative (mantissa * Nat.pow 10 exponent.toNat) (Nat.pow 10 (-exponent).toNat)

end NestedViews.Binary64
