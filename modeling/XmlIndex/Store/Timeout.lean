/-! # Waiting times

How long a lock is waited for, in milliseconds, and how such a time is written: in seconds
from one second on, with the digits of the fraction that are needed; below that in whole
milliseconds; and zero as `0ns`. -/

namespace XmlIndex

/-- A waiting time in milliseconds. -/
structure Timeout where
  milliseconds : Nat
  deriving DecidableEq, Inhabited

namespace Timeout

/-- The decimal places of a number of thousandths, without zeros at the end. -/
def places (thousandths : Nat) : String :=
  if thousandths = 0 then ""
  else if thousandths % 100 = 0 then "." ++ toString (thousandths / 100)
  else if thousandths % 10 = 0 then
    "." ++ toString (thousandths / 100) ++ toString (thousandths / 10 % 10)
  else
    "." ++ toString (thousandths / 100) ++ toString (thousandths / 10 % 10) ++
      toString (thousandths % 10)

/-- The written form of a waiting time. -/
def toText (t : Timeout) : String :=
  if t.milliseconds = 0 then "0ns"
  else if t.milliseconds < 1000 then toString t.milliseconds ++ "ms"
  else toString (t.milliseconds / 1000) ++ places (t.milliseconds % 1000) ++ "s"

end Timeout

end XmlIndex
