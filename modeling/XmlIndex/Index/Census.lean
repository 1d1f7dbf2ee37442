import XmlIndex.Block.Basic
import XmlIndex.Index.Entries

/-! # Census

`census` counts for every name of some collections the nodes that are stored under it and the
blocks they are stored in.  The counts are taken from the headers of the blocks; their bodies
are not decoded. -/

namespace XmlIndex

/-- How many nodes have a name, in how many documents. -/
structure NameCount where
  name : QName
  nodes : Nat := 0
  documents : Nat := 0
  deriving DecidableEq, Inhabited

namespace NameCount

/-- The count with one more document that has `nodes` nodes of the name. -/
def add (c : NameCount) (nodes : UInt32) : NameCount :=
  { c with nodes := c.nodes + nodes.toNat, documents := c.documents + 1 }

/-- The count with the blocks of a value. -/
def addValue (c : NameCount) (value : Bytes) : Except Error NameCount :=
  (Block.scan value).fold (fun c block => .ok (c.add block.count)) c

end NameCount

namespace Index

/-- The counts with the value under one key. -/
def countEntry (symbols : SymbolTable) (counts : SortedMap QName NameCount)
    (entry : Key × Bytes) : Except Error (SortedMap QName NameCount) := do
  let name ← entry.1.name symbols
  -- A name may have keys in several of the collections.
  let before := (counts.get? name).getD { name }
  let count ← before.addValue entry.2
  return counts.insert name count

/-- The counts with all names of these collections. -/
def countCollections (symbols : SymbolTable) :
    List CollectionId → SortedMap QName NameCount → Action Store (SortedMap QName NameCount)
  | [], counts => pure counts
  | collection :: collections, counts => do
    let entries ← entriesOf collection
    let counts ← Action.ofExcept (entries.foldlM (countEntry symbols) counts)
    countCollections symbols collections counts

/-- How often every name occurs in these collections, in the order of the names. -/
def census (collections : List CollectionId) : Action Index (List NameCount) := do
  let symbols := (← get).symbols
  let counts ← onStore (Store.locked .read (countCollections symbols collections .empty))
  return counts.values

end Index

end XmlIndex
