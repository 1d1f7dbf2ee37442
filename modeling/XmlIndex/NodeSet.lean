import XmlIndex.NodeRef
import XmlIndex.SortedMap

/-! # Node sets

Node references grouped by document, the documents by ascending number.  The references of a
document are kept in the order in which they came, with a flag that says whether this is
document order without repeats.  The flag is taken back as soon as a reference comes that
does not stand behind the last one, or when the source of the references says so; only
sorting sets it again.

Sorting keeps of the references to one node the first, with the origins of all. -/

namespace XmlIndex

namespace NodeRef

/-- The references in document order; references to one node keep their order. -/
def sort (rs : List NodeRef) : List NodeRef :=
  rs.mergeSort fun a b => (compare a.node b.node).isLE

/-- The references behind `last`, those to one node merged into the first of them. -/
def mergeFrom (last : NodeRef) : List NodeRef → List NodeRef
  | [] => [last]
  | r :: rs =>
    if last.node = r.node then mergeFrom (last.addOrigins r.origins) rs
    else last :: mergeFrom r rs

/-- The references, neighbours to one node merged into the first of them. -/
def merge : List NodeRef → List NodeRef
  | [] => []
  | r :: rs => mergeFrom r rs

end NodeRef

/-- The references to nodes of one document. -/
structure DocumentNodes where
  nodes : Array NodeRef
  sorted : Bool
  deriving Inhabited

namespace DocumentNodes

/-- No reference. -/
def empty : DocumentNodes := ⟨#[], true⟩

/-- The references with one more at the end. -/
def add (d : DocumentNodes) (r : NodeRef) : DocumentNodes where
  nodes := d.nodes.push r
  sorted :=
    d.sorted &&
      -- In order is only what stands strictly behind the last one.
      match d.nodes.back? with
      | none => true
      | some last => (compare last.node r.node).isLT

/-- The references in document order, each node once. -/
def sort (d : DocumentNodes) : DocumentNodes :=
  if d.sorted then d
  else ⟨(NodeRef.merge (NodeRef.sort d.nodes.toList)).toArray, true⟩

/-- The place of a node between `low` and `high` among references in document order. -/
def search (nodes : Array NodeRef) (node : NodeId) (low high : Nat) (h : high ≤ nodes.size) :
    Option NodeRef :=
  if hlt : low < high then
    -- The node is looked for from `low` up to `high`, `high` excluded.
    let middle := low + (high - low) / 2
    have hm : middle < nodes.size := by omega
    match compare nodes[middle].node node with
    | .eq => some nodes[middle]
    | .lt => search nodes node (middle + 1) high h
    | .gt => search nodes node low middle (by omega)
  else none
termination_by high - low

/-- The reference to a node: by halving where the order allows it, else the first one. -/
def find? (d : DocumentNodes) (node : NodeId) : Option NodeRef :=
  if d.sorted then search d.nodes node 0 d.nodes.size (Nat.le_refl _)
  else d.nodes.find? (·.node == node)

end DocumentNodes

/-- Node references by document, and the documents they come from where a query has shown
them to be the ones it was asked for. -/
structure NodeSet where
  docs : SortedMap DocId DocumentNodes := .empty
  documentSet? : Option DocumentSet := none

namespace NodeSet

/-- The set without references. -/
def empty : NodeSet := {}

instance : Inhabited NodeSet := ⟨empty⟩

/-- The set with one more reference. -/
def add (s : NodeSet) (r : NodeRef) : NodeSet :=
  let before := (s.docs.get? r.doc).getD .empty
  { s with docs := s.docs.insert r.doc (before.add r) }

/-- Notes whether the references of a document came in order; an order once lost stays so. -/
def noteSorted (s : NodeSet) (doc : DocId) (sorted : Bool) : NodeSet :=
  { s with docs := s.docs.modify doc fun d => { d with sorted := d.sorted && sorted } }

/-- Whether the references of a document are in document order without repeats. -/
def isSorted (s : NodeSet) (doc : DocId) : Bool :=
  ((s.docs.get? doc).map (·.sorted)).getD true

/-- The set with the references of every document in order. -/
def sort (s : NodeSet) : NodeSet := { s with docs := s.docs.mapValues DocumentNodes.sort }

/-- A sorted set of the references. -/
def ofList (rs : List NodeRef) : NodeSet := (rs.foldl add empty).sort

/-- The references of a document as they came. -/
def nodes (s : NodeSet) (doc : DocId) : List NodeRef :=
  match s.docs.get? doc with
  | none => []
  | some d => d.nodes.toList

/-- The references of a document in order. -/
def sortedNodes (s : NodeSet) (doc : DocId) : List NodeRef :=
  match s.docs.get? doc with
  | none => []
  | some d => d.sort.nodes.toList

/-- The number of references. -/
def size (s : NodeSet) : Nat := (s.docs.values.map fun d => d.nodes.size).foldl (· + ·) 0

/-- Whether there is no reference. -/
def isEmpty (s : NodeSet) : Bool := s.docs.values.all fun d => d.nodes.isEmpty

/-- The documents with references, ascending. -/
def documentIds (s : NodeSet) : List DocId :=
  (s.docs.entries.filter fun e => !e.2.nodes.isEmpty).map (·.1)

/-- The number of documents with references. -/
def documentCount (s : NodeSet) : Nat := s.documentIds.length

/-- The node ids of a document as they came. -/
def nodeIds (s : NodeSet) (doc : DocId) : List NodeId := (s.nodes doc).map (·.node)

/-- The reference to a node. -/
def get? (s : NodeSet) (doc : DocId) (node : NodeId) : Option NodeRef :=
  (s.docs.get? doc).bind (·.find? node)

/-- All references, by document. -/
def toList (s : NodeSet) : List NodeRef := s.docs.values.flatMap (·.nodes.toList)

end NodeSet

end XmlIndex
