import XmlIndex.Hex
import XmlIndex.Json.Basic

/-! # Writing JSON

Values are written either without any blanks (`compact`) or with one member or item to a line,
indented by two blanks for each level (`pretty`).  In strings only quotes, backslashes and
control characters are escaped. -/

namespace XmlIndex

namespace Json

/-- The value of a text. -/
def ofText (s : String) : Json := .string (some s)

/-- The value of a natural number. -/
def ofNat (n : Nat) : Json := .number (.ofNat n)

/-- The value of a text that may be missing. -/
def ofText? : Option String → Json
  | none => .null
  | some s => ofText s

/-- An object with these members. -/
def record (members : List (String × Json)) : Json :=
  .object (members.map fun m => (some m.1, m.2))

/-- A character as it stands in a string. -/
def escape (c : Char) : List Char :=
  match c with
  | '"' => ['\\', '"']
  | '\\' => ['\\', '\\']
  | '\x08' => ['\\', 'b']
  | '\t' => ['\\', 't']
  | '\n' => ['\\', 'n']
  | '\x0c' => ['\\', 'f']
  | '\r' => ['\\', 'r']
  | c =>
    if c.toNat < 0x20 then
      ['\\', 'u', '0', '0', Hex.digit (c.toNat / 16), Hex.digit (c.toNat % 16)]
    else [c]

/-- A text as a string literal. -/
def quoted (s : String) : String :=
  "\"" ++ String.ofList (s.toList.flatMap escape) ++ "\""

/-- A name as a string literal; one without text is written as an empty one. -/
def quotedName (name? : Option String) : String := quoted (name?.getD "")

/-- A number as it is written. -/
def numeralText (n : Numeral) : String :=
  let sign := if n.negative then "-" else ""
  let fraction :=
    match n.fraction? with
    | none => ""
    | some digits => "." ++ String.ofList digits
  let exponent :=
    match n.exponent? with
    | none => ""
    | some (negative, digits) => (if negative then "e-" else "e") ++ String.ofList digits
  sign ++ String.ofList n.whole ++ fraction ++ exponent

/-- A value without items or members; the empty text for any other. -/
def scalar : Json → String
  | .null => "null"
  | .bool true => "true"
  | .bool false => "false"
  | .number n => numeralText n
  | .string text? => quotedName text?
  | .array _ => ""
  | .object _ => ""

mutual

/-- A value without blanks. -/
def compact : Json → String
  | .array items => "[" ++ ",".intercalate (compactItems items) ++ "]"
  | .object members => "\x7b" ++ ",".intercalate (compactMembers members) ++ "\x7d"
  | j => scalar j

/-- Items without blanks. -/
def compactItems : List Json → List String
  | [] => []
  | item :: items => compact item :: compactItems items

/-- Members without blanks. -/
def compactMembers : List (Option String × Json) → List String
  | [] => []
  | (name?, item) :: members =>
    (quotedName name? ++ ":" ++ compact item) :: compactMembers members

end

/-- The beginning of a line. -/
def indentation (level : Nat) : String := "".pushn ' ' (2 * level)

/-- Lines between brackets. -/
def bracketed (left right : String) (level : Nat) (lines : List String) : String :=
  if lines.isEmpty then left ++ right
  else
    left ++ "\n" ++ ",\n".intercalate (lines.map fun line => indentation (level + 1) ++ line) ++
      "\n" ++ indentation level ++ right

mutual

/-- A value with a line for each item and member, at this level. -/
def prettyAt (level : Nat) : Json → String
  | .array items => bracketed "[" "]" level (prettyItems (level + 1) items)
  | .object members => bracketed "\x7b" "\x7d" level (prettyMembers (level + 1) members)
  | j => scalar j

/-- The lines of items. -/
def prettyItems (level : Nat) : List Json → List String
  | [] => []
  | item :: items => prettyAt level item :: prettyItems level items

/-- The lines of members. -/
def prettyMembers (level : Nat) : List (Option String × Json) → List String
  | [] => []
  | (name?, item) :: members =>
    (quotedName name? ++ ": " ++ prettyAt level item) :: prettyMembers level members

end

/-- A value with a line for each item and member. -/
def pretty (j : Json) : String := prettyAt 0 j

end Json

end XmlIndex
