import XmlIndex.Decimal

/-! # JSON values

A JSON text as it is written: numbers keep their digits and objects their members, in order
and with repetitions.  What a number means is decided by the type it is read for: a natural
number has neither sign nor fraction nor exponent, a float may have all of them. -/

namespace XmlIndex

/-- A number as it is written. -/
structure Numeral where
  negative : Bool := false
  whole : List Char
  fraction? : Option (List Char) := none
  exponent? : Option (Bool × List Char) := none
  deriving DecidableEq, Inhabited

/-- A JSON value.  A string literal has no text if it escapes one half of a surrogate pair
without the other. -/
inductive Json where
  | null
  | bool (b : Bool)
  | number (n : Numeral)
  | string (text? : Option String)
  | array (items : List Json)
  | object (members : List (Option String × Json))
  deriving Inhabited

namespace Numeral

/-- The numeral of a natural number. -/
def ofNat (n : Nat) : Numeral := { whole := Nat.toDigits 10 n }

/-- The natural number that is written, if it is one below `bound`. -/
def natural? (n : Numeral) (bound : Nat) : Option Nat :=
  if n.negative || n.fraction?.isSome || n.exponent?.isSome then none
  else
    let value := Decimal.value n.whole
    if value < bound then some value else none

/-- The power of ten of the exponent. -/
def exponent (n : Numeral) : Int :=
  match n.exponent? with
  | none => 0
  | some (true, digits) => -(Decimal.value digits : Int)
  | some (false, digits) => Decimal.value digits

/-- As many digits as 64 bits can hold, without a point, and the power of ten they are to be
scaled by.  Digits of the fraction are read on while there is room, even if a digit before the
point was left out. -/
def parts (n : Numeral) : Nat × Int :=
  let fraction := n.fraction?.getD []
  let (leading, taken) := Decimal.absorb UInt64.size 0 n.whole
  let (significand, places) := Decimal.absorb UInt64.size leading fraction
  (significand, ((n.whole.length - taken : Nat) : Int) - places + n.exponent)

/-- A power of ten, exact up to the 22nd and else rounded. -/
def powerOfTen (n : Nat) : Float := OfScientific.ofScientific 1 false n

/-- The largest power of ten that is used as a factor. -/
def largestPower : Nat := 308

/-- A float times a power of ten; none if that is too large. -/
def scaleUp (f : Float) (power : Nat) : Option Float :=
  if power ≤ largestPower then
    let scaled := f * powerOfTen power
    if scaled.isInf then none else some scaled
  else if f == 0 then some f
  else none

/-- A float over a power of ten, in steps if the power is too large for one. -/
def scaleDown (f : Float) (power : Nat) : Float :=
  if power ≤ largestPower then f / powerOfTen power
  else if f == 0 then f
  else scaleDown (f / powerOfTen largestPower) (power - largestPower)
termination_by power
decreasing_by simp only [largestPower] at *; omega

/-- The float that is written: the digits as one float, then scaled. -/
def float? (n : Numeral) : Option Float := do
  let (significand, power) := n.parts
  let start := (UInt64.ofNat significand).toFloat
  let size ← if power < 0 then some (scaleDown start power.natAbs) else scaleUp start power.toNat
  return if n.negative then -size else size

end Numeral

end XmlIndex
