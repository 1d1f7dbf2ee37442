import XmlIndex.Block.Basic
import XmlIndex.NodeRef
import XmlIndex.SortedMap

/-! # Batches

The nodes of one document that are waiting to be written to the index or removed from it,
grouped by name in the order of the names.  A batch for the first load of a document is
written as ordered blocks, one for a document that is indexed already as unordered ones. -/

namespace XmlIndex

/-- Nodes of one document by name. -/
structure Batch where
  document : Document
  order : BlockOrder
  pending : SortedMap QName (List NodeRef) := .empty

namespace Batch

/-- An empty batch for the first load of a document. -/
def firstLoad (document : Document) : Batch := { document, order := .ordered }

/-- An empty batch for more nodes of a document that is indexed already. -/
def additions (document : Document) : Batch := { document, order := .unordered }

instance : Inhabited Batch := ⟨firstLoad default⟩

/-- The batch with one more node, which has to be of its document. -/
def register (b : Batch) (name : QName) (node : NodeRef) : Except Error Batch :=
  if node.doc ≠ b.document.id then .error (.documentMismatch b.document.id node.doc)
  else
    let before := (b.pending.get? name).getD []
    .ok { b with pending := b.pending.insert name (before ++ [node]) }

/-- The names, ascending. -/
def names (b : Batch) : List QName := b.pending.keys

/-- The number of names. -/
def size (b : Batch) : Nat := b.pending.size

/-- Whether nothing is waiting. -/
def isEmpty (b : Batch) : Bool := b.pending.isEmpty

/-- The number of nodes. -/
def nodeCount (b : Batch) : Nat := (b.pending.values.map List.length).foldl (· + ·) 0

/-- The nodes of a name, in the order in which they were registered. -/
def nodes? (b : Batch) (name : QName) : Option (List NodeRef) := b.pending.get? name

/-- The batch without a name. -/
def drop (b : Batch) (name : QName) : Batch := { b with pending := b.pending.erase name }

/-- The batch with these nodes under a name. -/
def restore (b : Batch) (name : QName) (nodes : List NodeRef) : Batch :=
  { b with pending := b.pending.insert name nodes }

/-- The batch with nothing waiting. -/
def discard (b : Batch) : Batch := { b with pending := .empty }

end Batch

end XmlIndex
