import XmlIndex.Block.Basic
import XmlIndex.Index.Entries

/-! # Audits

`audit` looks up every indexed node of a document in the document itself.  The node has to be
there, it has to be an element or an attribute, and its type and local name have to be those
of the key it is indexed under; the first node that fails ends the audit.  The report has one
line for each key with a block of the document: the local name and the addresses of the
nodes. -/

namespace XmlIndex

/-- What a document says about one of its nodes. -/
structure StoredNode where
  type : NodeType
  localName : String
  deriving DecidableEq, Inhabited

/-- Looks up a node in its document. -/
abbrev Resolver := Document → NodeId → Address → Option StoredNode

namespace Audit

/-- Holds an indexed node against its document. -/
def checkEntry (resolve : Resolver) (document : Document) (name : QName) (entry : Entry) :
    Except Error Unit :=
  match resolve document entry.node entry.address with
  | none => .error (.nodeNotFound entry.node document.uri)
  | some found =>
    let expected := name.kind.nodeType
    -- Only elements and attributes have a name to be indexed under.
    if !found.type.isIndexed then
      .error (.nodeNotIndexable entry.node document.uri found.type)
    else if found.type = expected ∧ found.localName = name.localName then .ok ()
    else
      .error (.nodeDisagrees entry.node document.uri found.type found.localName expected
        name.localName)

/-- The addresses of the nodes indexed in a value, if there is a block of the document. -/
def checkValue (resolve : Resolver) (document : Document) (name : QName) (value : Bytes) :
    Except Error (Option (List Address)) :=
  (Block.scan value).fold (fun found? block =>
    if block.doc ≠ document.id then .ok found?
    else do
      let entries ← block.entries
      entries.forM (checkEntry resolve document name)
      .ok (some (found?.getD [] ++ entries.map (·.address)))) none

/-- The line of a report. -/
def line (name : QName) (addresses : List Address) : String :=
  "Checking " ++ name.localName ++ ": " ++ String.join (addresses.map fun a => a.toText ++ " ")

/-- The report with the value under one key. -/
def checkKey (resolve : Resolver) (document : Document) (symbols : SymbolTable)
    (report : List String) (entry : Key × Bytes) : Except Error (List String) := do
  let name ← entry.1.name symbols
  match ← checkValue resolve document name entry.2 with
  | none => return report
  | some addresses => return report ++ [line name addresses]

end Audit

namespace Index

/-- Holds all indexed nodes of a document against the document. -/
def audit (document : Document) (resolve : Resolver) : Action Index (List String) := do
  let symbols := (← get).symbols
  onStore <| Store.locked .read do
    let entries ← entriesOf document.collection
    Action.ofExcept (entries.foldlM (Audit.checkKey resolve document symbols) [])

end Index

end XmlIndex
