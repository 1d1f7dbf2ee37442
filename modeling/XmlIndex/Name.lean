/-! # Names

Elements and attributes are indexed by name.  A name consists of a local part and a
namespace; it may come with the qualifier it was written with, and it carries the family
under which it is indexed.

Names are ordered by local part, then namespace, then qualifier (none first), then family. -/

namespace XmlIndex

/-- What a stored node is. -/
inductive NodeType where
  | element
  | attr
  | text
  | cdata
  | processingInstruction
  | comment
  | document
  deriving DecidableEq, Inhabited

/-- The families of names: elements, attributes, and attributes that are found by their bare
local part. -/
inductive NameKind where
  | element
  | attr
  | attrId
  deriving DecidableEq, Inhabited

namespace NodeType

/-- The name of a node type. -/
def name : NodeType → String
  | element => "Element"
  | attr => "Attribute"
  | text => "Text"
  | cdata => "CData"
  | processingInstruction => "ProcessingInstruction"
  | comment => "Comment"
  | document => "Document"

/-- All node types. -/
def all : List NodeType :=
  [element, attr, text, cdata, processingInstruction, comment, document]

/-- The node type of that name. -/
def ofName? (s : String) : Option NodeType :=
  all.find? (·.name == s)

/-- Whether nodes of this type are indexed. -/
def isIndexed : NodeType → Bool
  | element | attr => true
  | _ => false

end NodeType

namespace NameKind

/-- The name of a family. -/
def name : NameKind → String
  | element => "Element"
  | attr => "Attribute"
  | attrId => "AttributeId"

/-- All families, in the order of their codes. -/
def all : List NameKind := [element, attr, attrId]

/-- The family of that name. -/
def ofName? (s : String) : Option NameKind :=
  all.find? (·.name == s)

/-- The code of a family. -/
def toByte : NameKind → UInt8
  | element => 0
  | attr => 1
  | attrId => 2

/-- The family with that code. -/
def ofByte? (b : UInt8) : Option NameKind :=
  all.find? (·.toByte == b)

/-- The type of the nodes indexed in this family. -/
def nodeType : NameKind → NodeType
  | element => .element
  | attr | attrId => .attr

/-- Families are ordered by their codes. -/
instance : Ord NameKind := ⟨compareOn toByte⟩

theorem toByte_inj {a b : NameKind} (h : a.toByte = b.toByte) : a = b := by
  cases a <;> cases b <;> simp_all [toByte]

theorem ofByte?_toByte (k : NameKind) : ofByte? k.toByte = some k := by
  cases k <;> decide

instance : Std.TransOrd NameKind :=
  inferInstanceAs (Std.TransCmp (compareOn toByte))

instance : Std.LawfulEqOrd NameKind where
  eq_of_compare := fun h => toByte_inj (Std.LawfulEqOrd.eq_of_compare (α := UInt8) h)

end NameKind

/-- A qualified name and its family. -/
structure QName where
  localName : String
  namespaceUri : String := ""
  qualifier : Option String := none
  kind : NameKind := .element
  deriving DecidableEq, Inhabited

namespace QName

/-- Names compare by local part, namespace, qualifier and family, in that order. -/
instance : Ord QName :=
  ⟨compareLex (compareOn (·.localName))
    (compareLex (compareOn (·.namespaceUri))
      (compareLex (compareOn (·.qualifier)) (compareOn (·.kind))))⟩

instance : Std.TransOrd QName :=
  inferInstanceAs (Std.TransCmp (compareLex _ _))

instance : Std.LawfulEqOrd QName where
  eq_of_compare := fun {a b} h => by
    obtain ⟨h₁, h⟩ := compareLex_eq_eq.mp h
    obtain ⟨h₂, h⟩ := compareLex_eq_eq.mp h
    obtain ⟨h₃, h₄⟩ := compareLex_eq_eq.mp h
    cases a; cases b
    simp only [QName.mk.injEq]
    exact ⟨Std.LawfulEqOrd.eq_of_compare h₁, Std.LawfulEqOrd.eq_of_compare h₂,
      Std.LawfulEqOrd.eq_of_compare h₃, Std.LawfulEqOrd.eq_of_compare h₄⟩

/-- The written form: with its qualifier if it has a nonempty one, else with its namespace in
braces if that is nonempty, else the local part alone. -/
def toText (q : QName) : String :=
  match q.qualifier with
  | some qualifier =>
    if qualifier ≠ "" then qualifier ++ ":" ++ q.localName else unqualified
  | none => unqualified
where
  unqualified : String :=
    if q.namespaceUri ≠ "" then "\x7b" ++ q.namespaceUri ++ "\x7d" ++ q.localName
    else q.localName

end QName

end XmlIndex
