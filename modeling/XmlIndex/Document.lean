import XmlIndex.SortedMap

/-! # Documents

A document has a number, the collection it lies in, and a URI.  A document set holds at most
one document of each number and lists them by number. -/

namespace XmlIndex

/-- The number of a document. -/
abbrev DocId := UInt32

/-- The number of a collection. -/
abbrev CollectionId := UInt16

/-- A document and where it lies. -/
structure Document where
  id : DocId
  collection : CollectionId
  uri : String
  deriving DecidableEq, Inhabited

/-- The documents a query runs against. -/
structure DocumentSet where
  byId : SortedMap DocId Document

namespace DocumentSet

/-- The set without documents. -/
def empty : DocumentSet := ⟨.empty⟩

instance : Inhabited DocumentSet := ⟨empty⟩

/-- The set with `d`, in place of the document of that number. -/
def add (s : DocumentSet) (d : Document) : DocumentSet := ⟨s.byId.insert d.id d⟩

/-- The set of the documents; of two with one number the later counts. -/
def ofList (ds : List Document) : DocumentSet := ds.foldl add empty

/-- The document of that number. -/
def get? (s : DocumentSet) (id : DocId) : Option Document := s.byId.get? id

/-- Whether the set has a document of that number. -/
def contains (s : DocumentSet) (id : DocId) : Bool := s.byId.contains id

/-- The documents by ascending number. -/
def toList (s : DocumentSet) : List Document := s.byId.values

/-- The number of documents. -/
def size (s : DocumentSet) : Nat := s.byId.size

/-- Whether there is no document. -/
def isEmpty (s : DocumentSet) : Bool := s.byId.isEmpty

/-- The collections of the documents, ascending and each once. -/
def collections (s : DocumentSet) : List CollectionId :=
  (SortedMap.ofList (s.toList.map fun d => (d.collection, ()))).keys

end DocumentSet

end XmlIndex
