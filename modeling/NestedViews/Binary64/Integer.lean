import NestedViews.Binary64.Rounding

namespace NestedViews.Binary64

namespace Number

def compare? : Number → Number → Option Ordering
  | .finite s m e, .finite t n f =>
    let unit := min e f
    some (compare (signed s (m * Nat.pow 2 (e - unit).toNat))
      (signed t (n * Nat.pow 2 (f - unit).toNat)))
  | .infinite s, .infinite t => some (compare t s)
  | .infinite s, .finite .. => some (if s then .lt else .gt)
  | .finite .., .infinite t => some (if t then .gt else .lt)
  | _, _ => none

def fraction : Number → Number
  | .finite negative mantissa exponent =>
    .finite negative (mantissa % Nat.pow 2 (-exponent).toNat) exponent
  | _ => .nan

def toInt64 : Number → Int64
  | .finite negative mantissa exponent =>
    .ofIntClamp (signed negative
      (mantissa * Nat.pow 2 exponent.toNat / Nat.pow 2 (-exponent).toNat))
  | .infinite negative => if negative then .minValue else .maxValue
  | .nan => 0

end Number

/-- The integer that a number is, if it is one of 64 bits. The number nearest to the largest of them
is the power of two above it, which is out of range. -/
def toInt64? (x : Binary64) : Option Int64 :=
  let number := x.toNumber
  let least := (ofInt Int64.minValue.toInt).toNumber
  let bound := (ofInt Int64.maxValue.toInt).toNumber
  if number.fraction.compare? (.finite false 0 0) = some .eq ∧
      (least.compare? number).any Ordering.isLE ∧ number.compare? bound = some .lt then
    some number.toInt64
  else none

end NestedViews.Binary64
