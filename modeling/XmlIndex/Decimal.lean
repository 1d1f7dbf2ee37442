/-! # Decimal digits

The value of a run of decimal digits, and how a value is taken up from digits as far as it
stays below a bound. -/

namespace XmlIndex

namespace Decimal

/-- The value of a digit. -/
def digitValue (c : Char) : Nat := c.toNat - '0'.toNat

/-- The value of digits read on from `value`. -/
def readOn (value : Nat) (digits : List Char) : Nat :=
  digits.foldl (fun n c => n * 10 + digitValue c) value

/-- The value of digits. -/
def value (digits : List Char) : Nat := readOn 0 digits

/-- Reads on from `value` until the next digit would lead to `bound` or beyond; answers the
value and the number of digits read. -/
def absorb (bound value : Nat) : List Char → Nat × Nat
  | [] => (value, 0)
  | c :: digits =>
    let next := value * 10 + digitValue c
    if next < bound then
      let (result, count) := absorb bound next digits
      (result, count + 1)
    else (value, 0)

/-- The longest run of digits at the front, and what follows it. -/
def span (cs : List Char) : List Char × List Char :=
  (cs.takeWhile Char.isDigit, cs.dropWhile Char.isDigit)

end Decimal

end XmlIndex
