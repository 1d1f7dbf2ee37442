import XmlIndex.Index.Basic

/-! # All entries of a collection

Reports on a collection go through all its keys: family by family, and within a family in the
order of the keys.  The keys of a family are read as keys before the next family is looked up.

`Key.name` goes back from a key to the name it was made of, without the qualifier. -/

namespace XmlIndex

namespace Key

/-- The name a key was made of: by its codes, or by the bytes of its local part. -/
def name (symbols : SymbolTable) (k : Key) : Except Error QName :=
  match k.symbols? with
  | none => .ok { localName := Bytes.lossyText k.tail, kind := k.kind }
  | some (symbol, ns) =>
    match symbols.name? symbol, symbols.namespace? ns with
    | none, _ => .error (.unknownSymbol symbol k.toText)
    | some _, none => .error (.unknownNamespace ns k.toText)
    | some localName, some namespaceUri => .ok { localName, namespaceUri, kind := k.kind }

end Key

namespace Index

/-- Reads the keys of stored entries. -/
def parseKeys (entries : List (Bytes × Bytes)) : Except Error (List (Key × Bytes)) :=
  entries.mapM fun (key, value) => do
    let key ← Key.ofBytes key
    return (key, value)

/-- The entries of these families in a collection. -/
def entriesOfKinds (collection : CollectionId) : List NameKind → Action Store (List (Key × Bytes))
  | [] => pure []
  | kind :: kinds => do
    let stored ← Store.findEntries (rangeOf kind collection)
    let here ← Action.ofExcept (parseKeys stored)
    let more ← entriesOfKinds collection kinds
    return here ++ more

/-- The entries of a collection. -/
def entriesOf (collection : CollectionId) : Action Store (List (Key × Bytes)) :=
  entriesOfKinds collection NameKind.all

end Index

end XmlIndex
