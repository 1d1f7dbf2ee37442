import XmlIndex.Document
import XmlIndex.Error
import XmlIndex.Timestamp.Reader
import XmlIndex.Wire

/-! # Collection records

What is stored of a collection: its number, its name, when it was made, and the names of the
documents and collections in it.  The record of a collection is stored under its name, with a
byte in front that no key of the index starts with. -/

namespace XmlIndex

/-- The stored part of a collection. -/
structure Record where
  id : CollectionId
  name : String
  created : Timestamp
  documents : List String := []
  subcollections : List String := []
  deriving DecidableEq, Inhabited

namespace Record

/-- The first byte of the keys of records. -/
def keyMark : UInt8 := 0xF0

/-- The key of the record of a collection. -/
def key (name : String) : Bytes := keyMark :: Bytes.ofText name

/-- The bytes of a record. -/
def encode (r : Record) : Bytes :=
  Bytes.littleEndian 2 r.id.toNat ++ Wire.putText r.name ++ Wire.putText r.created.toText ++
    Wire.putList Wire.putText r.documents ++ Wire.putList Wire.putText r.subcollections

/-- A timestamp in its written form. -/
def timestamp : Wire.Reader Timestamp := do
  let text ← Wire.text
  Timestamp.parse text

/-- Reads a record. -/
def read : Wire.Reader Record := do
  let id ← Wire.word 2
  let name ← Wire.text
  let created ← timestamp
  let documents ← Wire.list Wire.text
  let subcollections ← Wire.list Wire.text
  return { id := UInt16.ofNat id, name, created, documents, subcollections }

/-- The record with these bytes; bytes behind it do not count. -/
def decode (bs : Bytes) : Except Error Record :=
  match read bs with
  | some (r, _) => .ok r
  | none => .error .undecodable

end Record

end XmlIndex
