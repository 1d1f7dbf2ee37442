import XmlIndex.NodeId.Basic

/-! # Axes

A step of a query asks for the nodes that stand in an axis to the nodes it starts from. -/

namespace XmlIndex

/-- The directions of a step. -/
inductive Axis where
  | child
  | descendant
  | descendantOrSelf
  | attr
  | descendantAttr
  deriving DecidableEq, Inhabited

namespace Axis

/-- The name of an axis. -/
def name : Axis → String
  | child => "Child"
  | descendant => "Descendant"
  | descendantOrSelf => "DescendantOrSelf"
  | attr => "Attribute"
  | descendantAttr => "DescendantAttribute"

/-- All axes. -/
def all : List Axis := [child, descendant, descendantOrSelf, attr, descendantAttr]

/-- The axis of that name. -/
def ofName? (s : String) : Option Axis :=
  all.find? (·.name == s)

/-- Whether a node of this relation to the start lies on the axis. -/
def accepts : Axis → Relation → Bool
  | child, r | attr, r => r == .child
  | descendant, r | descendantAttr, r => r == .child || r == .descendant
  | descendantOrSelf, _ => true

end Axis

end XmlIndex
