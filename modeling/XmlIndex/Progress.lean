/-! # Progress

How far an operation of known size has come, and whether that is worth a report: once for
every `step` percent. -/

namespace XmlIndex

/-- The state of a counted operation. -/
structure Progress where
  max : Nat
  step : Nat
  value : Nat := 0
  reported : Nat := 0
  finished : Bool := false
  deriving DecidableEq, Inhabited

namespace Progress

/-- The start of an operation of `max` parts with a report every `step` percent, of which
there is at least one. -/
def start (max step : Nat) : Progress := { max, step := Nat.max step 1 }

/-- The operation with `value` parts done, at most all of them. -/
def setValue (p : Progress) (value : Nat) : Progress := { p with value := min value p.max }

/-- The part that is done, in whole percent; an operation without parts is done. -/
def percent (p : Progress) : Nat :=
  if p.max = 0 then 100 else p.value * 100 / p.max

/-- Whether a step was completed since the last one that was noticed, and the state in which
it is noticed. -/
def changed (p : Progress) : Bool × Progress :=
  if p.reported + p.step ≤ p.percent then
    -- What goes beyond the last whole step counts towards the next one.
    (true, { p with reported := p.percent - p.percent % p.step })
  else (false, p)

/-- The operation at its end. -/
def finish (p : Progress) : Progress := { p with value := p.max, finished := true }

end Progress

end XmlIndex
