import XmlIndex.Name
import XmlIndex.Document
import XmlIndex.Address
import XmlIndex.NodeId.Basic

/-! # Node references

A reference names a stored node by document and node id, says where the node is stored and of
which type it is, and remembers from which nodes it was reached.  An origin is listed once,
in the order in which it was first added. -/

namespace XmlIndex

/-- A node that a reference was reached from, under the number of the step that did it. -/
structure Origin where
  contextId : UInt32
  node : NodeId
  deriving DecidableEq, Inhabited

/-- A reference to a stored node. -/
structure NodeRef where
  doc : DocId
  node : NodeId
  address : Address := .unknown
  type? : Option NodeType := none
  origins : List Origin := []
  deriving DecidableEq, Inhabited

namespace NodeRef

/-- The reference with one more origin, unless it has it already. -/
def addOrigin (r : NodeRef) (o : Origin) : NodeRef :=
  if o ∈ r.origins then r else { r with origins := r.origins ++ [o] }

/-- The reference with all these origins. -/
def addOrigins (r : NodeRef) (os : List Origin) : NodeRef := os.foldl addOrigin r

/-- The reference with the origins of a node above it. -/
def inherit (r ancestor : NodeRef) : NodeRef := r.addOrigins ancestor.origins

/-- The reference with the origins of a node above it and that node as one more. -/
def inheritAs (r ancestor : NodeRef) (contextId : UInt32) : NodeRef :=
  (r.inherit ancestor).addOrigin ⟨contextId, ancestor.node⟩

end NodeRef

end XmlIndex
