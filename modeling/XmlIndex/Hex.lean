import XmlIndex.Bytes

/-! # Hexadecimal digits

Numbers below 16 as single digits, and bytes as two digits each, in lower case.  `ofHex?` reads
back what `toHex` writes. -/

namespace XmlIndex

namespace Hex

/-- The digit for a number below 16. -/
def digit (n : Nat) : Char :=
  if n < 10 then Char.ofNat ('0'.toNat + n) else Char.ofNat ('a'.toNat + (n - 10))

/-- The value of a digit in either case. -/
def value? (c : Char) : Option Nat :=
  if c.isDigit then some (c.toNat - '0'.toNat)
  else if 'a' ≤ c ∧ c ≤ 'f' then some (c.toNat - 'a'.toNat + 10)
  else if 'A' ≤ c ∧ c ≤ 'F' then some (c.toNat - 'A'.toNat + 10)
  else none

theorem value?_digit {n : Nat} (h : n < 16) : value? (digit n) = some n := by
  revert n
  decide

/-- The bytes written by pairs of digits. -/
def pairs? : List Char → Option Bytes
  | [] => some []
  | [_] => none
  | a :: b :: rest => do
    let high ← value? a
    let low ← value? b
    let more ← pairs? rest
    return UInt8.ofNat (high * 16 + low) :: more

/-- A byte as two digits. -/
def ofByte (b : UInt8) : List Char := [digit (b.toNat / 16), digit (b.toNat % 16)]

theorem pairs?_flatMap_ofByte (bs : Bytes) : pairs? (bs.flatMap ofByte) = some bs := by
  induction bs with
  | nil => rfl
  | cons b bs ih =>
    have hb := b.toNat_lt
    have high : b.toNat / 16 < 16 := by omega
    have low : b.toNat % 16 < 16 := by omega
    -- The two digits are quotient and remainder of the byte by 16.
    have whole : UInt8.ofNat (b.toNat / 16 * 16 + b.toNat % 16) = b := by
      rw [show b.toNat / 16 * 16 + b.toNat % 16 = b.toNat by omega, UInt8.ofNat_toNat]
    simp only [List.flatMap_cons, ofByte, List.cons_append, List.nil_append, pairs?,
      value?_digit high, value?_digit low, ih]
    exact congrArg (fun b => some (b :: bs)) whole

end Hex

namespace Bytes

/-- The hexadecimal text of bytes. -/
def toHex (bs : Bytes) : String := String.ofList (bs.flatMap Hex.ofByte)

/-- The bytes with this hexadecimal text. -/
def ofHex? (s : String) : Option Bytes := Hex.pairs? s.toList

theorem ofHex?_toHex (bs : Bytes) : ofHex? bs.toHex = some bs := by
  simp [ofHex?, toHex, Hex.pairs?_flatMap_ofByte]

end Bytes

end XmlIndex
