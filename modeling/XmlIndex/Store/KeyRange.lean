import XmlIndex.Bytes

/-! # Key ranges

A selection of keys: those that start with given bytes, or those between two bounds, the
lower one included.

`matches?` says which keys are selected.  A scan starts at `lower` and goes on while
`continues` holds. -/

namespace XmlIndex

/-- A selection of keys. -/
inductive KeyRange where
  | startingWith (head : Bytes)
  | between (low high : Bytes)
  deriving DecidableEq, Inhabited

namespace KeyRange

/-- Whether a key is selected. -/
def matches? (r : KeyRange) (key : Bytes) : Bool :=
  match r with
  | startingWith head => head.isPrefixOf key
  | between low high => (compare low key).isLE && (compare key high).isLT

/-- The smallest key that can be selected. -/
def lower : KeyRange → Bytes
  | startingWith head => head
  | between low _ => low

/-- Whether a scan that has come to this key goes on. -/
def continues (r : KeyRange) (key : Bytes) : Bool :=
  match r with
  | startingWith head => head.isPrefixOf key
  | between _ high => (compare key high).isLT

/-- Of entries in the order of their keys the selected ones. -/
def scan {α : Type} (r : KeyRange) (entries : List (Bytes × α)) : List (Bytes × α) :=
  (entries.dropWhile fun e => (compare e.1 r.lower).isLT).takeWhile fun e => r.continues e.1

end KeyRange

end XmlIndex
