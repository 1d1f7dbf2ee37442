import XmlIndex.Bytes
import XmlIndex.SymbolTable

/-! # Keys

The index keeps the nodes of one name in one collection under one key.  A key starts with the
code of the name's family and the number of the collection, highest byte first, so the keys
of one family in one collection lie together.  Elements and attributes go on with the codes
of local name and namespace, four bytes in all; names of the third family go on with the
bytes of the local name itself. -/

namespace XmlIndex

/-- The key of a name in a collection. -/
structure Key where
  kind : NameKind
  collection : CollectionId
  tail : Bytes
  tail_length : kind ≠ .attrId → tail.length = 4
  deriving DecidableEq

namespace Key

/-- The bytes all keys of one family in one collection start with. -/
def head (kind : NameKind) (collection : CollectionId) : Bytes :=
  kind.toByte :: Bytes.bigEndian collection

/-- The key with these codes for local name and namespace. -/
def symbolic (kind : NameKind) (collection : CollectionId) (symbol ns : UInt16) : Key where
  kind := kind
  collection := collection
  tail := Bytes.bigEndian symbol ++ Bytes.bigEndian ns
  tail_length := fun _ => rfl

/-- The key of an attribute that is found by its bare local part. -/
def verbatim (collection : CollectionId) (localName : String) : Key where
  kind := .attrId
  collection := collection
  tail := Bytes.ofText localName
  tail_length := fun h => absurd rfl h

/-- The key of a name looked up in a family. -/
def ofName (kind : NameKind) (collection : CollectionId) (name : QName) :
    Action SymbolTable Key :=
  match kind with
  -- The key holds the local name itself and needs no codes.
  | .attrId => pure (verbatim collection name.localName)
  | _ => do
    let symbol ← SymbolTable.symbol name.localName
    let ns ← SymbolTable.namespaceSymbol name.namespaceUri
    return symbolic kind collection symbol ns

/-- The bytes of a key. -/
def toBytes (k : Key) : Bytes := head k.kind k.collection ++ k.tail

/-- The key with these bytes. -/
def ofBytes (bs : Bytes) : Except Error Key :=
  match bs with
  | code :: high :: low :: tail =>
    match NameKind.ofByte? code with
    | none => .error (.badNameKind code)
    | some kind =>
      -- Only the third family has keys of any length.
      if h : kind = .attrId ∨ tail.length = 4 then
        .ok { kind, tail, collection := Bytes.ofBigEndian high low,
              tail_length := fun hk => h.resolve_left hk }
      else .error (.keyLength bs.length)
  | _ => .error (.keyTooShort bs.length)

/-- The codes of local name and namespace. -/
def symbols? (k : Key) : Option (UInt16 × UInt16) :=
  match k.kind, k.tail with
  | .attrId, _ => none
  | _, [a, b, c, d] => some (Bytes.ofBigEndian a b, Bytes.ofBigEndian c d)
  -- Ruled out by the length of the tail.
  | _, _ => none

/-- The bytes of the local name, where the key holds them. -/
def localName? (k : Key) : Option Bytes :=
  if k.kind = .attrId then some k.tail else none

/-- The written form of a key. -/
def toText (k : Key) : String :=
  match k.symbols? with
  | some (symbol, ns) =>
    s!"Some({k.kind.name})/{k.collection.toNat}/{symbol.toNat}:{ns.toNat}"
  | none => s!"id/{k.collection.toNat}/" ++ Bytes.lossyText k.tail

/-- Keys are ordered by their bytes. -/
instance : Ord Key := ⟨compareOn toBytes⟩

/-- The keys in ascending order. -/
def sort (keys : List Key) : List Key :=
  keys.mergeSort fun a b => (compare a b).isLE

end Key

end XmlIndex
