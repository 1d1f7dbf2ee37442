import XmlIndex.Index.Basic
import XmlIndex.NodeSet

/-! # Looking up names

`lookup` answers the stored nodes of a name in given documents, in stored order.  A selector
may take a part of them and choose the references to them; address and type come from the
index.

The answer names the documents as its own if every one of them has a node in it and no node
was rejected. -/

namespace XmlIndex

/-- Chooses a reference to a stored node, or rejects the node. -/
abbrev Selector := Document → NodeId → Option NodeRef

/-- What a query has found, and whether nothing speaks against its documents being the ones
asked for. -/
structure Findings where
  nodes : NodeSet := .empty
  complete : Bool := true

namespace Findings

/-- The findings with one stored entry of a document. -/
def addEntry (kind : NameKind) (select? : Option Selector) (document : Document) (f : Findings)
    (entry : Entry) : Findings :=
  let chosen : Option NodeRef :=
    match select? with
    -- Without a selector every node is taken.
    | none => some { doc := document.id, node := entry.node }
    | some select => select document entry.node
  match chosen with
  | none => { f with complete := false }
  | some r =>
    -- Address and type are those of the index, whatever the selector says of them.
    { f with nodes := f.nodes.add { r with address := entry.address, type? := some kind.nodeType } }

/-- The findings with one block; blocks of other documents are passed over undecoded. -/
def addBlock (kind : NameKind) (select? : Option Selector) (docs : DocumentSet) (f : Findings)
    (block : Block) : Except Error Findings :=
  match docs.get? block.doc with
  | none => .ok f
  | some document => do
    let entries ← block.entries
    let f := entries.foldl (addEntry kind select? document) f
    -- An unordered block may be in order by chance, but nothing vouches for it.
    .ok { f with nodes := f.nodes.noteSorted document.id block.order.isOrdered }

/-- The nodes found.  They carry the documents asked for if none of them is missing. -/
def answer (f : Findings) (docs : DocumentSet) : NodeSet :=
  if f.complete && f.nodes.documentCount == docs.size then
    { f.nodes with documentSet? := some docs }
  else f.nodes

end Findings

namespace Index

/-- Goes through the values of a name in these collections; where there is none, the
findings are not complete. -/
def visitValues (kind : NameKind) (name : QName)
    (visit : Findings → Block → Except Error Findings) :
    List CollectionId → Findings → Action Index Findings
  | [], f => pure f
  | collection :: collections, f => do
    -- A name that is asked for gets its codes, stored or not.
    let key ← keyOf kind collection name
    match ← readValue key with
    | none => visitValues kind name visit collections { f with complete := false }
    | some value =>
      let f ← Action.ofExcept ((Block.scan value).fold visit f)
      visitValues kind name visit collections f

/-- The stored nodes of a name in these documents. -/
def lookup (kind : NameKind) (docs : DocumentSet) (name : QName) (select? : Option Selector) :
    Action Index NodeSet := do
  let visit := Findings.addBlock kind select? docs
  let f ← visitValues kind name visit docs.collections {}
  return f.answer docs

end Index

end XmlIndex
