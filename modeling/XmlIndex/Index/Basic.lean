import XmlIndex.Batch
import XmlIndex.Key
import XmlIndex.Store.Snapshot

/-! # The index

The index says which nodes of which documents have a given name.  It lives in a store: under
the key of a name in a collection lies a value made of blocks, each with nodes of one
document.  The codes in the keys come from a symbol table. -/

namespace XmlIndex

/-- The index: the store it lives in, the codes of the names, and how often the writing of a
batch is reported, in percent. -/
structure Index where
  store : Store
  symbols : SymbolTable
  progressStep : Nat
  deriving Inhabited

namespace Index

/-- Runs an action on the store of the index. -/
def onStore {α : Type} (x : Action Store α) : Action Index α :=
  Action.on (·.store) (fun store i => { i with store }) x

/-- The key of a name looked up in a family; the name gets its codes with it. -/
def keyOf (kind : NameKind) (collection : CollectionId) (name : QName) : Action Index Key :=
  Action.on (·.symbols) (fun symbols i => { i with symbols }) (Key.ofName kind collection name)

/-- Reads the value under a key with the lock. -/
def readValue (key : Key) : Action Index (Option Bytes) := do
  let slot ← onStore (Store.locked .read (Store.get key.toBytes))
  return slot.map (·.data)

/-- Writes the snapshot of the store, where it has a file for it. -/
def sync : Action Index Unit :=
  onStore (Store.locked .write (Store.flush .write))

/-- The keys of one family in one collection. -/
def rangeOf (kind : NameKind) (collection : CollectionId) : KeyRange :=
  .startingWith (Key.head kind collection)

end Index

end XmlIndex
