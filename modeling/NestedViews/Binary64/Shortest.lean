import NestedViews.Binary64.Basic

namespace NestedViews.Binary64

structure Decimal where
  digits : Nat
  exponent : Int
  deriving DecidableEq, Repr

/-- The numbers that round to a positive finite number lie between two bounds. The bounds and the
number itself are fractions over `unit`; the bounds belong to the interval iff `closed`. -/
structure Interval where
  low : Nat
  value : Nat
  high : Nat
  unit : Nat
  closed : Bool
  deriving DecidableEq, Repr

/-- The interval of `mantissa · 2 ^ exponent`. The bounds lie half way to the neighbours, and the
neighbour below a power of two is only half as far away as the one above, unless it is subnormal. -/
def interval (mantissa : Nat) (exponent : Int) : Interval :=
  let scale := Nat.pow 2 (exponent - 2).toNat
  let below := if mantissa = Nat.pow 2 52 ∧ -1074 < exponent then 1 else 2
  { low := (4 * mantissa - below) * scale
    value := 4 * mantissa * scale
    high := (4 * mantissa + 2) * scale
    unit := Nat.pow 2 (2 - exponent).toNat
    closed := mantissa % 2 == 0 }

namespace Interval

def compareTo (i : Interval) (d : Decimal) (bound : Nat) : Ordering :=
  compare (d.digits * Nat.pow 10 d.exponent.toNat * i.unit) (bound * Nat.pow 10 (-d.exponent).toNat)

def contains (i : Interval) (d : Decimal) : Bool :=
  if i.closed then (i.compareTo d i.low).isGE && (i.compareTo d i.high).isLE
  else (i.compareTo d i.low).isGT && (i.compareTo d i.high).isLT

def below (i : Interval) (exponent : Int) : Decimal :=
  ⟨i.value * Nat.pow 10 (-exponent).toNat / (Nat.pow 10 exponent.toNat * i.unit), exponent⟩

def above (i : Interval) (exponent : Int) : Decimal :=
  ⟨(i.below exponent).digits + 1, exponent⟩

def nearerBelow (i : Interval) (exponent : Int) : Bool :=
  let ends := (i.below exponent).digits + (i.above exponent).digits
  2 * i.value * Nat.pow 10 (-exponent).toNat < ends * Nat.pow 10 exponent.toNat * i.unit

def pick? (i : Interval) (exponent : Int) : Option Decimal :=
  match i.contains (i.below exponent), i.contains (i.above exponent) with
  | true, true => some (if i.nearerBelow exponent then i.below exponent else i.above exponent)
  | true, false => some (i.below exponent)
  | false, true => some (i.above exponent)
  | false, false => none

def search? (i : Interval) : Nat → Int → Option Decimal
  | 0, _ => none
  | steps + 1, exponent => (i.pick? exponent).or (i.search? steps (exponent - 1))

def leading (i : Interval) : Int :=
  if i.unit ≤ i.value then (Nat.toDigits 10 (i.value / i.unit)).length - 1
  else -(Nat.toDigits 10 (i.unit / i.value)).length

end Interval

def Decimal.strip : Nat → Decimal → Decimal
  | 0, d => d
  | limit + 1, d =>
    if d.digits ≠ 0 ∧ d.digits % 10 = 0 then strip limit ⟨d.digits / 10, d.exponent + 1⟩ else d

/-- The shortest decimal number that identifies `mantissa · 2 ^ exponent`, and of those of that
length the nearest. Seventeen digits always suffice; the exact value stands in for a failed search.
-/
def shortest (mantissa : Nat) (exponent : Int) : Decimal :=
  let i := interval mantissa exponent
  let found := (i.search? 17 i.leading).getD
    ⟨mantissa * Nat.pow 2 exponent.toNat * Nat.pow 5 (-exponent).toNat, min exponent 0⟩
  found.strip 17

end NestedViews.Binary64
