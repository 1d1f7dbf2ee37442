/-! # Node ids

A node of a document is named by the path to it: one positive ordinal per level, so that
`1.3.2` is the second child of the third child of the root `1`.  The empty path is no node;
it closes a list of nodes and is called the end of the document.

Ids are ordered by their levels, a shorter path before the longer ones that extend it.  That
is the order in which a reader meets the start of the nodes, so a node stands before all
nodes below it.

The relation of one id to another is decided on the paths alone (`relationTo?`); the three
tests `isDescendantOf`, `isDescendantOrSelfOf` and `isChildOf` ask for one relation each. -/

namespace XmlIndex

/-- The path of a node: one ordinal per level, the root's first. -/
structure NodeId where
  levels : List UInt32
  deriving DecidableEq, Inhabited

/-- How a node stands to one above it. -/
inductive Relation where
  | self
  | child
  | descendant
  deriving DecidableEq, Inhabited

namespace Relation

/-- The name of a relation. -/
def name : Relation → String
  | self => "SelfNode"
  | child => "Child"
  | descendant => "Descendant"

end Relation

namespace NodeId

/-! ## Order -/

/-- Ids compare level by level; a path stands before its extensions. -/
instance : Ord NodeId := ⟨compareOn levels⟩

instance : LT NodeId := ltOfOrd
instance : LE NodeId := leOfOrd

instance : Std.TransOrd NodeId :=
  inferInstanceAs (Std.TransCmp (compareOn NodeId.levels))

instance : Std.LawfulEqOrd NodeId where
  eq_of_compare := fun {a b} h => by
    cases a; cases b
    exact congrArg mk (Std.LawfulEqOrd.eq_of_compare (α := List UInt32) h)

/-- The ids in document order. -/
def sort (ids : List NodeId) : List NodeId :=
  ids.mergeSort fun a b => (compare a b).isLE

/-! ## Special ids and neighbours -/

/-- The empty path, which closes a list of nodes. -/
def endOfDocument : NodeId := ⟨[]⟩

/-- The first node of the first level. -/
def root : NodeId := ⟨[1]⟩

/-- Whether the id is the closing mark and no node. -/
def isEnd (n : NodeId) : Bool := n.levels.isEmpty

/-- A node id proper: at least one level, and every ordinal positive. -/
def Valid (n : NodeId) : Prop := n.levels ≠ [] ∧ 0 ∉ n.levels

instance (n : NodeId) : Decidable n.Valid := inferInstanceAs (Decidable (_ ∧ _))

/-- The node one level up; the nodes of the first level have none. -/
def parent? (n : NodeId) : Option NodeId :=
  if n.levels.length < 2 then none else some ⟨n.levels.dropLast⟩

/-- The node behind `n` on the same level; none once the ordinals are used up. -/
def nextSibling? (n : NodeId) : Option NodeId :=
  match n.levels.getLast? with
  | none => none
  | some last =>
    if last.toNat + 1 < UInt32.size then some ⟨n.levels.dropLast ++ [last + 1]⟩ else none

/-! ## Relations -/

/-- Whether `n` lies below `a`. -/
def isDescendantOf (n a : NodeId) : Bool :=
  -- Nothing lies below the closing mark.
  !a.isEnd && (a.levels.length < n.levels.length && a.levels.isPrefixOf n.levels)

/-- Whether `n` is `a` or lies below it. -/
def isDescendantOrSelfOf (n a : NodeId) : Bool :=
  n == a || n.isDescendantOf a

/-- Whether `n` lies one level below `a`. -/
def isChildOf (n a : NodeId) : Bool :=
  n.levels.length == a.levels.length + 1 && n.isDescendantOf a

/-- The relation of `n` to `a`, if `n` is `a` or lies below it. -/
def relationTo? (n a : NodeId) : Option Relation :=
  if a.isEnd || !a.levels.isPrefixOf n.levels then none
  else
    match n.levels.length - a.levels.length with
    | 0 => some .self
    | 1 => some .child
    | _ => some .descendant

/-! ## Text -/

/-- The ordinals in decimal with points between them; `<end>` for the closing mark. -/
def toText (n : NodeId) : String :=
  if n.isEnd then "<end>" else ".".intercalate (n.levels.map fun l => toString l.toNat)

end NodeId

end XmlIndex
