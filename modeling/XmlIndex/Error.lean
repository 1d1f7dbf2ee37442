import XmlIndex.Name
import XmlIndex.Document
import XmlIndex.NodeId.Basic

/-! # Errors

One constructor for each cause of failure, with the values its message names.  `Error.kind`
sorts the causes into the classes a caller can act on, `Error.message` words them.

One cause is of another sort.  At a sum that is no word the program stops, and no caller gets an
answer to act on: `Error.overflow`, with a class of its own, `Error.Kind.stopped`. -/

namespace XmlIndex

/-- Why a text is no decimal number of the wanted range. -/
inductive NumeralFault where
  | empty
  | badDigit
  | tooLarge
  deriving DecidableEq, Inhabited

/-- The wording of a numeral fault. -/
def NumeralFault.message : NumeralFault → String
  | empty => "cannot parse integer from empty string"
  | badDigit => "invalid digit found in string"
  | tooLarge => "number too large to fit in target type"

/-- The two ways to hold the lock of a store. -/
inductive LockMode where
  | read
  | write
  deriving DecidableEq, Inhabited

/-- The name of a lock mode. -/
def LockMode.name : LockMode → String
  | read => "read"
  | write => "write"

/-- The calls a store answers. -/
inductive StoreCall where
  | get
  | put
  | update
  | append
  | findKeys
  | findEntries
  | removeAll
  | remove
  | flush
  deriving DecidableEq, Inhabited

namespace StoreCall

/-- The name of a call. -/
def name : StoreCall → String
  | get => "get"
  | put => "put"
  | update => "update"
  | append => "append"
  | findKeys => "find_keys"
  | findEntries => "find_entries"
  | removeAll => "remove_all"
  | remove => "remove"
  | flush => "flush"

/-- All calls. -/
def all : List StoreCall :=
  [get, put, update, append, findKeys, findEntries, removeAll, remove, flush]

/-- The call of that name. -/
def ofName? (s : String) : Option StoreCall :=
  all.find? (·.name == s)

end StoreCall

/-- The causes of failure. -/
inductive Error where
  /-- A variable-length number goes on after its fifth byte. -/
  | varintOverflow
  /-- The bytes end inside a variable-length number. -/
  | varintCut
  /-- A read position behind the end of the bytes. -/
  | seekBeyondEnd (pos length : Nat)
  /-- The bytes end where one more is needed. -/
  | byteMissing
  /-- The bytes end inside a field of known length. -/
  | bytesMissing (need offset left : Nat)
  /-- A node id with more levels than there are bytes left. -/
  | levelsMissing (claimed : Nat)
  /-- An encoded node id with an ordinal zero. -/
  | levelZero
  /-- A node id without levels. -/
  | noLevels
  /-- A list of levels with an ordinal zero. -/
  | zeroLevel (levels : List UInt32)
  /-- A text that is no node id. -/
  | badNodeId (text : String) (fault : NumeralFault)
  /-- A byte that is no code of a name family. -/
  | badNameKind (code : UInt8)
  /-- A byte that is no code of a block order. -/
  | badBlockOrder (code : UInt8)
  /-- A key that ends before its fixed part does. -/
  | keyTooShort (length : Nat)
  /-- A key with symbols that has another length than such keys have. -/
  | keyLength (length : Nat)
  /-- No code is left for a new text. -/
  | symbolsExhausted
  /-- A block that declares more nodes than its body has bytes. -/
  | blockOverfull (doc : DocId) (declared : UInt32) (bytes : Nat)
  /-- A block that declares another number of nodes than it holds. -/
  | blockMiscounted (doc : DocId) (declared : UInt32) (found : Nat)
  /-- A block whose body goes on behind the closing mark. -/
  | blockStray (doc : DocId) (bytes : Nat)
  /-- A mark with no entry at it. -/
  | markPastLast (pos : Nat)
  /-- A node of another document than the batch's. -/
  | documentMismatch (batch node : DocId)
  /-- A first load of a document that has a block under the key. -/
  | alreadyIndexed (doc : DocId) (key : String)
  /-- A removal that was told to stop. -/
  | removalStopped (uri : String) (keys : Nat)
  /-- A symbol without a name. -/
  | unknownSymbol (symbol : UInt16) (key : String)
  /-- A namespace symbol without a namespace. -/
  | unknownNamespace (symbol : UInt16) (key : String)
  /-- An indexed node that its document does not have. -/
  | nodeNotFound (node : NodeId) (uri : String)
  /-- An indexed node that is neither element nor attribute. -/
  | nodeNotIndexable (node : NodeId) (uri : String) (found : NodeType)
  /-- An indexed node of another type or name than the index says. -/
  | nodeDisagrees (node : NodeId) (uri : String) (found : NodeType) (foundName : String)
      (expected : NodeType) (expectedName : String)
  /-- The lock is held by someone else. -/
  | lockUnavailable (mode : LockMode) (store : String) (timeout : String)
  /-- A change without the write lock. -/
  | writeLockNeeded (call : StoreCall)
  /-- A change to a store that is read-only. -/
  | storeReadOnly (call : StoreCall) (store : String)
  /-- An update at an address that is not the key's. -/
  | staleAddress (given current : Nat)
  /-- An update of a key that is not there. -/
  | updateMissing
  /-- A failure that was planned for this call. -/
  | injected (what : String)
  /-- A snapshot file shorter than its header. -/
  | snapshotShort (path : String)
  /-- A snapshot file shorter than its header says. -/
  | snapshotCut (path : String)
  /-- A snapshot file whose payload has another checksum. -/
  | snapshotChecksum (path : String)
  /-- A sum that is no word of eight bytes.  It is never answered: the program stops there. -/
  | overflow
  /-- A file that is not there. -/
  | fileMissing
  /-- A file that is not text. -/
  | fileNotText
  /-- Bytes that are no encoded value of the wanted type. -/
  | undecodable
  /-- A text that is no JSON value of the wanted type. -/
  | badJson
  /-- A collection that is there already. -/
  | collectionExists (name : String)
  /-- No cached collection may leave. -/
  | cacheFull (slots : Nat)
  /-- Slots and maps of a cache have different sizes. -/
  | cacheSizes (resident keys names : Nat)
  /-- A key that leads to an empty slot. -/
  | cacheEmptySlot (key slot : Nat)
  /-- A key that leads to a collection with another key. -/
  | cacheWrongKey (slot found key : Nat)
  /-- A resident collection whose name leads elsewhere. -/
  | cacheWrongName (name : String) (key : Nat)
  /-- A name that leads to no resident key. -/
  | cacheUnknownKey (name : String) (key : Nat)
  deriving DecidableEq, Inhabited

namespace Error

/-- The classes of failure.  All but the last are answered to the caller. -/
inductive Kind where
  | io
  | parse
  | notFound
  | invalidArgument
  | internal
  | invalidState
  | lockUnavailable
  | readOnly
  | malformedStream
  | documentMismatch
  | corrupted
  | cacheFull
  | terminated
  | stopped
  deriving DecidableEq, Inhabited

namespace Kind

/-- The name of a class. -/
def name : Kind → String
  | io => "Io"
  | parse => "Parse"
  | notFound => "NotFound"
  | invalidArgument => "InvalidArgument"
  | internal => "Internal"
  | invalidState => "InvalidState"
  | lockUnavailable => "LockUnavailable"
  | readOnly => "ReadOnly"
  | malformedStream => "MalformedStream"
  | documentMismatch => "DocumentMismatch"
  | corrupted => "Corrupted"
  | cacheFull => "CacheFull"
  | terminated => "Terminated"
  | stopped => "Panic"

/-- All classes. -/
def all : List Kind :=
  [io, parse, notFound, invalidArgument, internal, invalidState, lockUnavailable, readOnly,
    malformedStream, documentMismatch, corrupted, cacheFull, terminated, stopped]

/-- The class of that name. -/
def ofName? (s : String) : Option Kind :=
  all.find? (·.name == s)

/-- A failure as it is shown: its class, a colon, its message. -/
def describe (k : Kind) (message : String) : String :=
  k.name ++ ": " ++ message

end Kind

/-- The class of a cause. -/
def kind : Error → Kind
  | injected _ | fileMissing | fileNotText => .io
  | varintOverflow | badNodeId .. | undecodable | badJson => .parse
  | updateMissing => .notFound
  | noLevels | zeroLevel _ | badNameKind _ | keyTooShort _ | keyLength _
  | collectionExists _ => .invalidArgument
  | cacheSizes .. | cacheEmptySlot .. | cacheWrongKey .. | cacheWrongName ..
  | cacheUnknownKey .. => .internal
  | symbolsExhausted | alreadyIndexed .. | writeLockNeeded _ | staleAddress .. => .invalidState
  | lockUnavailable .. => .lockUnavailable
  | storeReadOnly .. => .readOnly
  | varintCut | seekBeyondEnd .. | byteMissing | bytesMissing .. | levelsMissing _ | levelZero
  | badBlockOrder _ | blockOverfull .. | blockMiscounted .. | blockStray ..
  | markPastLast _ => .malformedStream
  | documentMismatch .. => .documentMismatch
  | unknownSymbol .. | unknownNamespace .. | nodeNotFound .. | nodeNotIndexable ..
  | nodeDisagrees .. | snapshotShort _ | snapshotCut _ | snapshotChecksum _ => .corrupted
  | cacheFull _ => .cacheFull
  | removalStopped .. => .terminated
  | overflow => .stopped

/-- Ordinals in brackets, with a comma and a blank between them. -/
def levelList (levels : List UInt32) : String :=
  "[" ++ ", ".intercalate (levels.map fun l => toString l.toNat) ++ "]"

/-- The wording of a cause. -/
def message : Error → String
  | varintOverflow => "VByte overflow"
  | varintCut => "Incomplete VByte"
  | seekBeyondEnd pos length => s!"seek to {pos} beyond end of stream ({length})"
  | byteMissing => "unexpected end of stream reading byte"
  | bytesMissing need offset left => s!"need {need} bytes at offset {offset}, only {left} left"
  | levelsMissing claimed => s!"node id claims {claimed} levels, stream too short"
  | levelZero => "zero level number in node id"
  | noLevels => "node id needs at least one level"
  | zeroLevel levels => s!"level numbers start at 1: {levelList levels}"
  | badNodeId text fault => "bad node id '" ++ text ++ "': " ++ fault.message
  | badNameKind code => s!"invalid index entry kind {code.toNat}"
  | badBlockOrder code => s!"invalid order flag {code.toNat}"
  | keyTooShort length => s!"index key too short: {length} bytes"
  | keyLength length => s!"symbolic key has {length} bytes"
  | symbolsExhausted => "symbol table exhausted"
  | blockOverfull doc declared bytes =>
    s!"block of document {doc.toNat} declares {declared.toNat} nodes in {bytes} bytes"
  | blockMiscounted doc declared found =>
    s!"block of document {doc.toNat} declares {declared.toNat} nodes, found {found}"
  | blockStray doc bytes =>
    s!"{bytes} stray bytes after terminator in block of document {doc.toNat}"
  | markPastLast pos => s!"mark at {pos} points past the last entry"
  | documentMismatch batch node =>
    s!"document id ('{batch.toNat}') and proxy id ('{node.toNat}') differ"
  | alreadyIndexed doc key =>
    s!"document {doc.toNat} is already indexed under {key}, flush in update mode"
  | removalStopped uri keys => s!"removal of document {uri} stopped after {keys} keys"
  | unknownSymbol symbol key => s!"unknown symbol {symbol.toNat} in key {key}"
  | unknownNamespace symbol key => s!"unknown namespace {symbol.toNat} in key {key}"
  | nodeNotFound node uri => s!"node {node.toText} in document {uri} not found"
  | nodeNotIndexable node uri found =>
    s!"node {node.toText} in document {uri} is {found.name}, expected element or attribute"
  | nodeDisagrees node uri found foundName expected expectedName =>
    s!"node {node.toText} in document {uri} is {found.name} '{foundName}', " ++
      s!"index says {expected.name} '{expectedName}'"
  | lockUnavailable mode store timeout =>
    s!"failed to acquire {mode.name} lock for '{store}' within {timeout}"
  | writeLockNeeded call => s!"{call.name} requires a write lock"
  | storeReadOnly call store => s!"{call.name} on read-only store '{store}'"
  | staleAddress given current =>
    s!"stale address ValueAddress({given}), key now lives at ValueAddress({current})"
  | updateMissing => "update of a missing key"
  | injected what => s!"injected {what} failure"
  | snapshotShort path => s!"snapshot {path} too short"
  | snapshotCut path => s!"snapshot {path} truncated"
  | snapshotChecksum path => s!"snapshot {path} checksum mismatch"
  | overflow => "attempt to add with overflow"
  | fileMissing => "no such file"
  | fileNotText => "the file is not UTF-8 text"
  | undecodable => "the bytes are no encoded value"
  | badJson => "the text is no JSON value of this type"
  | collectionExists name => s!"collection '{name}' already exists"
  | cacheFull slots => s!"all {slots} cached collections are locked or pinned"
  | cacheSizes resident keys names =>
    s!"{resident} resident collections, {keys} keys, {names} names"
  | cacheEmptySlot key slot => s!"key {key} points at empty slot {slot}"
  | cacheWrongKey slot found key => s!"slot {slot} holds key {found}, expected {key}"
  | cacheWrongName name key => s!"name '{name}' does not map to key {key}"
  | cacheUnknownKey name key => s!"name '{name}' maps to unknown key {key}"

end Error

end XmlIndex
