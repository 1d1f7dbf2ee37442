import XmlIndex.Timestamp.Calendar

/-! # Timestamps

A moment in universal time, to the nanosecond.  A leap second is kept as the second before it
with a full second more of nanoseconds.  Years run from -262143 to 262142.

The written form has a fraction of as many digits as are needed of 0, 3, 6 and 9, and `Z` for
the zone. -/

namespace XmlIndex

/-- A moment in universal time. -/
structure Timestamp where
  date : CalendarDate
  second : Nat
  nanosecond : Nat
  deriving DecidableEq, Inhabited

namespace Timestamp

/-- The start of the year 1970. -/
def epoch : Timestamp := ⟨⟨1970, 1, 1⟩, 0, 0⟩

/-- The number of seconds of a day. -/
def secondsPerDay : Nat := 86400

/-- The number of nanoseconds of a second. -/
def nanosPerSecond : Nat := 1000000000

/-- Whether timestamps reach this year. -/
def isYearInRange (year : Int) : Bool := -262143 ≤ year && year ≤ 262142

/-- The moment at which clocks that are `offset` seconds ahead show this date and second. -/
def ofLocal? (date : CalendarDate) (second nanosecond : Nat) (offset : Int) : Option Timestamp :=
  if !date.isValid || !isYearInRange date.year then none
  else
    let universal : Int := second - offset
    -- An offset is shorter than a day, so the date moves by one day at most.
    let day :=
      if universal < 0 then date.previous
      else if universal < secondsPerDay then date
      else date.next
    if isYearInRange day.year then
      some ⟨day, (universal % secondsPerDay).toNat, nanosecond⟩
    else none

/-! ## Text -/

/-- A number in decimal with zeros in front up to `width` digits. -/
def padded (width n : Nat) : String :=
  let digits := Nat.toDigits 10 n
  String.ofList (List.replicate (width - digits.length) '0' ++ digits)

/-- A year: four digits, and a sign where it has more or lies before year 0. -/
def yearText (year : Int) : String :=
  if year < 0 then "-" ++ padded 4 year.natAbs
  else if 9999 < year then "+" ++ padded 4 year.natAbs
  else padded 4 year.natAbs

/-- A fraction of a second. -/
def fractionText (nanos : Nat) : String :=
  if nanos = 0 then ""
  else if nanos % 1000000 = 0 then "." ++ padded 3 (nanos / 1000000)
  else if nanos % 1000 = 0 then "." ++ padded 6 (nanos / 1000)
  else "." ++ padded 9 nanos

/-- The written form of a timestamp. -/
def toText (t : Timestamp) : String :=
  -- A leap second is shown as second 60.
  let leap := t.nanosecond / nanosPerSecond
  yearText t.date.year ++ "-" ++ padded 2 t.date.month ++ "-" ++ padded 2 t.date.day ++ "T" ++
    padded 2 (t.second / 3600) ++ ":" ++ padded 2 (t.second / 60 % 60) ++ ":" ++
    padded 2 (t.second % 60 + leap) ++ fractionText (t.nanosecond % nanosPerSecond) ++ "Z"

end Timestamp

end XmlIndex
