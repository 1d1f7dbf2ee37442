import XmlIndex.Blank
import XmlIndex.Decimal
import XmlIndex.Timestamp.Basic

/-! # Reading timestamps

The accepted form is year, month, day, hour, minute, second and zone, as in
`2024-02-29T12:30:00.5+02:00`, with some freedom:

* blanks may stand before every number, before every `-` and `:`, and around the zone,
* numbers may have fewer digits, and the year more of them behind a sign,
* a blank or a small `t` may stand for the `T`,
* digits of the fraction behind the ninth do not count,
* the zone is `Z`, `UTC`, or an offset of less than a day, whose sign may be U+2212 and whose
  hours and minutes may have colons and blanks or nothing between them. -/

namespace XmlIndex

namespace Timestamp

/-- Takes a value from the front of the characters. -/
abbrev Reader (α : Type) := StateT (List Char) Option α

/-- At least one digit, and at most `width`. -/
def digits (width : Nat) : Reader (List Char) := fun cs =>
  let run := (cs.take width).takeWhile Char.isDigit
  if run.isEmpty then none else some (run, cs.drop run.length)

/-- A number of at most `width` digits. -/
def number (width : Nat) : Reader Nat := do
  modify dropBlanks
  let run ← digits width
  return Decimal.value run

/-- A year: at most four digits, or a sign and any number of them. -/
def year : Reader Int := do
  modify dropBlanks
  match ← get with
  | '-' :: cs =>
    set cs
    let run ← digits cs.length
    return -(Decimal.value run : Int)
  | '+' :: cs =>
    set cs
    let run ← digits cs.length
    return Decimal.value run
  | _ =>
    let run ← digits 4
    return Decimal.value run

/-- One of some characters. -/
def oneOf (accepted : List Char) : Reader Unit := do
  match ← get with
  | c :: cs => if c ∈ accepted then set cs else failure
  | [] => failure

/-- A mark between two numbers. -/
def mark (c : Char) : Reader Unit := do
  modify dropBlanks
  oneOf [c]

/-- The nanoseconds of a fraction, which may be missing. -/
def fraction : Reader Nat := do
  match ← get with
  | '.' :: cs =>
    set cs
    let run ← digits 9
    -- Digits behind the ninth do not count.
    modify fun cs => cs.dropWhile Char.isDigit
    return Decimal.value (run ++ List.replicate (9 - run.length) '0')
  | _ => return 0

/-- Two digits. -/
def twoDigits : Reader Nat := do
  let run ← digits 2
  if run.length = 2 then return Decimal.value run else failure

/-- An offset in seconds behind its sign. -/
def offset : Reader Int := do
  let hours ← twoDigits
  modify fun cs => cs.dropWhile fun c => c == ':' || isBlank c
  let minutes ← twoDigits
  if hours ≤ 23 ∧ minutes ≤ 59 then return hours * 3600 + minutes * 60 else failure

/-- A zone, as the seconds its clocks are ahead. -/
def zone : Reader Int := do
  match ← get with
  | '+' :: cs =>
    set cs
    offset
  | '-' :: cs | '\u2212' :: cs =>
    set cs
    let ahead ← offset
    return -ahead
  | u :: t :: c :: cs =>
    if [u, t, c].map Char.toUpper = ['U', 'T', 'C'] then
      set cs
      return 0
    else
      oneOf ['Z', 'z']
      return 0
  | _ =>
    oneOf ['Z', 'z']
    return 0

/-- A whole timestamp. -/
def timestamp : Reader Timestamp := do
  let year ← year
  mark '-'
  let month ← number 2
  mark '-'
  let day ← number 2
  oneOf ['T', 't', ' ']
  let hour ← number 2
  mark ':'
  let minute ← number 2
  mark ':'
  let second ← number 2
  let nanos ← fraction
  modify dropBlanks
  let offset ← zone
  modify dropBlanks
  if (← get).isEmpty && hour ≤ 23 && minute ≤ 59 && second ≤ 60 then
    -- Second 60 is second 59 with one second more of nanoseconds.
    let leap := second / 60
    let start := hour * 3600 + minute * 60 + second - leap
    (ofLocal? ⟨year, month, day⟩ start (nanos + leap * nanosPerSecond) offset : Option Timestamp)
  else failure

/-- The timestamp with this written form. -/
def parse (s : String) : Option Timestamp := (timestamp s.toList).map (·.1)

end Timestamp

end XmlIndex
