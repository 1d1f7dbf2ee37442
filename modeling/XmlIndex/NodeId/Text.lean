import XmlIndex.NodeId.Basic
import XmlIndex.Error

/-! # Node ids from levels and text

A node id is written as its ordinals in decimal with points between them.  Each part is an
unsigned 32-bit numeral: ASCII digits, at least one, with one plus sign allowed in front and
any number of leading zeros. -/

namespace XmlIndex

namespace NodeId

/-- The id with these levels, of which there has to be one and none may be zero. -/
def ofLevels (levels : List UInt32) : Except Error NodeId :=
  if levels.isEmpty then .error .noLevels
  else if levels.contains 0 then .error (.zeroLevel levels)
  else .ok ⟨levels⟩

/-- The `n`-th child of a node. -/
def child (parent : NodeId) (n : UInt32) : Except Error NodeId :=
  ofLevels (parent.levels ++ [n])

/-- The value of decimal digits read on from `value`; the first fault from the left counts. -/
def numeralFrom (value : Nat) : List Char → Except NumeralFault Nat
  | [] => .ok value
  | c :: rest =>
    if c.isDigit then
      let value := value * 10 + (c.toNat - '0'.toNat)
      if value < UInt32.size then numeralFrom value rest else .error .tooLarge
    else .error .badDigit

/-- The value of an unsigned 32-bit numeral. -/
def numeral (text : List Char) : Except NumeralFault UInt32 :=
  match text with
  | [] => .error .empty
  -- A sign alone is a bad digit.
  | [_] => UInt32.ofNat <$> numeralFrom 0 text
  | '+' :: digits => UInt32.ofNat <$> numeralFrom 0 digits
  | _ => UInt32.ofNat <$> numeralFrom 0 text

/-- The parts of a text between its points; there is always one. -/
def parts : List Char → List (List Char)
  | [] => [[]]
  | c :: rest =>
    if c = '.' then [] :: parts rest
    else
      match parts rest with
      -- Does not come up, as there always is a part.
      | [] => [[c]]
      | part :: more => (c :: part) :: more

/-- The node id a text denotes. -/
def parse (text : String) : Except Error NodeId := do
  let levels ← (parts text.toList).mapM fun part =>
    match numeral part with
    | .ok n => .ok n
    | .error fault => .error (.badNodeId text fault)
  ofLevels levels

end NodeId

end XmlIndex
