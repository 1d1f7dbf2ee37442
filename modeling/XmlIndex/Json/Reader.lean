import XmlIndex.Hex
import XmlIndex.Json.Basic

/-! # Reading JSON

The grammar is that of the standard, without any extension: no comments, no trailing commas, no
signs or zeros in front of numbers, no control characters inside strings.  Values may be nested
as deep as they like.

`parse` reads a whole text.  The recursion is bounded by the number of characters: every second
call takes one. -/

namespace XmlIndex

namespace Json

/-- Whether a character may stand between the parts of a value. -/
def isSpace (c : Char) : Bool := c == ' ' || c == '\t' || c == '\n' || c == '\r'

/-- The characters without blanks at the front. -/
def dropSpaces (cs : List Char) : List Char := cs.dropWhile isSpace

/-! ## Strings -/

/-- A part of a string literal: a character, or a number escaped as four hexadecimal digits. -/
inductive Piece where
  | char (c : Char)
  | unit (n : Nat)

/-- The value of four hexadecimal digits. -/
def hexWord? (a b c d : Char) : Option Nat := do
  return (((← Hex.value? a) * 16 + (← Hex.value? b)) * 16 + (← Hex.value? c)) * 16 +
    (← Hex.value? d)

/-- The character a letter stands for behind a backslash. -/
def escaped? : Char → Option Char
  | '"' => some '"'
  | '\\' => some '\\'
  | '/' => some '/'
  | 'b' => some '\x08'
  | 'f' => some '\x0c'
  | 'n' => some '\n'
  | 'r' => some '\r'
  | 't' => some '\t'
  | _ => none

/-- The parts of a string literal behind its opening quote, and what follows the literal. -/
def pieces : List Char → Option (List Piece × List Char)
  | [] => none
  | '"' :: rest => some ([], rest)
  | '\\' :: 'u' :: a :: b :: c :: d :: rest => do
    let n ← hexWord? a b c d
    let (more, rest) ← pieces rest
    return (.unit n :: more, rest)
  | '\\' :: letter :: rest => do
    let c ← escaped? letter
    let (more, rest) ← pieces rest
    return (.char c :: more, rest)
  | c :: rest =>
    if c.toNat < 0x20 ∨ c = '\\' then none
    else do
      let (more, rest) ← pieces rest
      return (.char c :: more, rest)

/-- Whether a number is the first half of a surrogate pair. -/
def isHigh (n : Nat) : Bool := 0xD800 ≤ n && n < 0xDC00

/-- Whether a number is the second half of a surrogate pair. -/
def isLow (n : Nat) : Bool := 0xDC00 ≤ n && n < 0xE000

/-- The characters of a literal, if every half of a surrogate pair stands with the other. -/
def chars? : List Piece → Option (List Char)
  | [] => some []
  | .char c :: rest => (c :: ·) <$> chars? rest
  | .unit high :: .unit low :: rest =>
    if isHigh high then
      -- The first half of a pair counts only with the second half right behind it.
      if isLow low then
        (Char.ofNat (0x10000 + (high - 0xD800) * 0x400 + (low - 0xDC00)) :: ·) <$> chars? rest
      else none
    else if isLow high then none
    else (Char.ofNat high :: ·) <$> chars? (.unit low :: rest)
  | .unit n :: rest =>
    if isHigh n || isLow n then none else (Char.ofNat n :: ·) <$> chars? rest

/-- A string literal behind its opening quote: its text, if it has one, and what follows. -/
def literal (cs : List Char) : Option (Option String × List Char) := do
  let (ps, rest) ← pieces cs
  return ((chars? ps).map String.ofList, rest)

/-! ## Numbers -/

/-- The digits before the point: a zero alone, or digits of which the first is no zero. -/
def wholePart (cs : List Char) : Option (List Char × List Char) :=
  match Decimal.span cs with
  | ([], _) => none
  -- No digit may follow a leading zero.
  | (['0'], rest) => some (['0'], rest)
  | ('0' :: _, _) => none
  | (digits, rest) => some (digits, rest)

/-- The digits behind the point, if there is a point. -/
def fractionPart (cs : List Char) : Option (Option (List Char) × List Char) :=
  match cs with
  | '.' :: cs =>
    let (digits, rest) := Decimal.span cs
    if digits.isEmpty then none else some (some digits, rest)
  | _ => some (none, cs)

/-- Whether the exponent is negative, and what follows its sign. -/
def exponentSign (cs : List Char) : Bool × List Char :=
  match cs with
  | '-' :: cs => (true, cs)
  | '+' :: cs => (false, cs)
  | _ => (false, cs)

/-- The exponent, if there is one. -/
def exponentPart (cs : List Char) : Option (Option (Bool × List Char) × List Char) :=
  match cs with
  | 'e' :: cs | 'E' :: cs =>
    let (negative, cs) := exponentSign cs
    let (digits, rest) := Decimal.span cs
    if digits.isEmpty then none else some (some (negative, digits), rest)
  | _ => some (none, cs)

/-- A number behind its sign. -/
def numeral (negative : Bool) (cs : List Char) : Option (Numeral × List Char) := do
  let (whole, cs) ← wholePart cs
  let (fraction?, cs) ← fractionPart cs
  let (exponent?, cs) ← exponentPart cs
  return ({ negative, whole, fraction?, exponent? }, cs)

/-! ## Values -/

mutual

/-- A value at the front of the characters. -/
def value (fuel : Nat) (cs : List Char) : Option (Json × List Char) :=
  match fuel with
  | 0 => none
  | fuel + 1 =>
    match dropSpaces cs with
    | 'n' :: 'u' :: 'l' :: 'l' :: rest => some (.null, rest)
    | 't' :: 'r' :: 'u' :: 'e' :: rest => some (.bool true, rest)
    | 'f' :: 'a' :: 'l' :: 's' :: 'e' :: rest => some (.bool false, rest)
    | '"' :: rest => do
      let (text?, rest) ← literal rest
      return (.string text?, rest)
    | '-' :: rest => do
      let (n, rest) ← numeral true rest
      return (.number n, rest)
    | '[' :: rest =>
      match dropSpaces rest with
      | ']' :: rest => some (.array [], rest)
      | rest => do
        let (items, rest) ← items fuel rest
        return (.array items, rest)
    | '{' :: rest =>
      match dropSpaces rest with
      | '}' :: rest => some (.object [], rest)
      | rest => do
        let (members, rest) ← members fuel rest
        return (.object members, rest)
    | rest => do
      let (n, rest) ← numeral false rest
      return (.number n, rest)

/-- The items of an array up to and with its closing bracket. -/
def items (fuel : Nat) (cs : List Char) : Option (List Json × List Char) :=
  match fuel with
  | 0 => none
  | fuel + 1 => do
    let (item, rest) ← value fuel cs
    match dropSpaces rest with
    | ',' :: rest =>
      let (more, rest) ← items fuel rest
      return (item :: more, rest)
    | ']' :: rest => return ([item], rest)
    | _ => none

/-- The members of an object up to and with its closing brace. -/
def members (fuel : Nat) (cs : List Char) :
    Option (List (Option String × Json) × List Char) :=
  match fuel with
  | 0 => none
  | fuel + 1 => do
    match dropSpaces cs with
    | '"' :: rest =>
      let (name?, rest) ← literal rest
      match dropSpaces rest with
      | ':' :: rest =>
        let (item, rest) ← value fuel rest
        match dropSpaces rest with
        | ',' :: rest =>
          let (more, rest) ← members fuel rest
          return ((name?, item) :: more, rest)
        | '}' :: rest => return ([(name?, item)], rest)
        | _ => none
      | _ => none
    | _ => none

end

/-- The value a text denotes. -/
def parse (s : String) : Option Json :=
  let cs := s.toList
  match value (2 * cs.length + 2) cs with
  | some (j, rest) => if (dropSpaces rest).isEmpty then some j else none
  | none => none

end Json

end XmlIndex
