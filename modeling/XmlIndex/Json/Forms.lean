import XmlIndex.Index.Census
import XmlIndex.Index.Statistics
import XmlIndex.Json.Decode
import XmlIndex.Json.Writer

/-! # JSON forms

How names, documents, node ids, counts and statistics are written as JSON and read back.  The
levels of a node id are read as they stand, even if no node has such an id. -/

namespace XmlIndex

namespace QName

/-- The names of the fields of a name. -/
def fieldNames : List String := ["local_name", "namespace_uri", "prefix", "name_type"]

/-- The JSON form of a name. -/
def toJson (q : QName) : Json :=
  .record [("local_name", .ofText q.localName), ("namespace_uri", .ofText q.namespaceUri),
    ("prefix", .ofText? q.qualifier), ("name_type", .ofText q.kind.name)]

/-- The name with this JSON form. -/
def ofJson : Json.Decoder QName := fun j => do
  match ← Json.fields fieldNames j with
  | [localName, namespaceUri, qualifier, kind] =>
    return {
      localName := ← Json.required Json.text localName
      namespaceUri := ← Json.required Json.text namespaceUri
      qualifier := ← Json.absentOr Json.text qualifier
      kind := ← Json.required (Json.oneOf NameKind.ofName?) kind }
  | _ => none

end QName

namespace Document

/-- The names of the fields of a document. -/
def fieldNames : List String := ["id", "collection", "uri"]

/-- The JSON form of a document. -/
def toJson (d : Document) : Json :=
  .record [("id", .ofNat d.id.toNat), ("collection", .ofNat d.collection.toNat),
    ("uri", .ofText d.uri)]

/-- The document with this JSON form. -/
def ofJson : Json.Decoder Document := fun j => do
  match ← Json.fields fieldNames j with
  | [id, collection, uri] =>
    return {
      id := ← Json.required Json.word32 id
      collection := ← Json.required Json.word16 collection
      uri := ← Json.required Json.text uri }
  | _ => none

end Document

namespace NodeId

/-- The JSON form of a node id. -/
def toJson (n : NodeId) : Json :=
  .record [("levels", .array (n.levels.map fun l => .ofNat l.toNat))]

/-- The node id with this JSON form. -/
def ofJson : Json.Decoder NodeId := fun j => do
  match ← Json.fields ["levels"] j with
  | [levels] => return ⟨← Json.required (Json.listOf Json.word32) levels⟩
  | _ => none

end NodeId

namespace NameCount

/-- The names of the fields of a count. -/
def fieldNames : List String := ["qname", "occurrences", "documents"]

/-- The JSON form of a count. -/
def toJson (c : NameCount) : Json :=
  .record [("qname", c.name.toJson), ("occurrences", .ofNat c.nodes),
    ("documents", .ofNat c.documents)]

/-- The count with this JSON form. -/
def ofJson : Json.Decoder NameCount := fun j => do
  match ← Json.fields fieldNames j with
  | [name, nodes, documents] =>
    return {
      name := ← Json.required QName.ofJson name
      nodes := ← Json.required Json.word64 nodes
      documents := ← Json.required (Json.natural UInt32.size) documents }
  | _ => none

end NameCount

namespace Statistics

/-- The JSON form of statistics that were made at this time. -/
def toJson (s : Statistics) (generatedAt : String) : Json :=
  .record [("collection", .ofNat s.collection.toNat), ("generated_at", .ofText generatedAt),
    ("keys", .ofNat s.keys), ("blocks", .ofNat s.blocks),
    ("unordered_blocks", .ofNat s.unorderedBlocks), ("nodes", .ofNat s.nodes),
    ("value_bytes", .ofNat s.valueBytes)]

end Statistics

end XmlIndex
