import XmlIndex.Action
import XmlIndex.SortedMap
import XmlIndex.Store.KeyRange
import XmlIndex.Store.Timeout

/-! # Stores

A store keeps values under keys, in the order of the keys.  Every value has an address; a new
value gets a new one, and an update has to name the address of the value it replaces, so a
writer that works from an outdated value is noticed.

Access is guarded by a lock with shared readers or one writer.  `locked` runs an action with
the lock and gives it back; no action takes the lock a second time, so the lock is afterwards
as it was before.  The calls that change the store ask for the mode in which their caller
holds the lock.  A store may be read-only.

A call can be planned to fail (`plan`): it then fails before it does anything, once. -/

namespace XmlIndex

/-- A stored value and its address. -/
structure Slot where
  address : Nat
  data : Bytes
  deriving DecidableEq, Inhabited

/-- Where a store writes its snapshot: nowhere, or into a file with this content, if it is
there. -/
inductive Backing where
  | none
  | file (content : Option Bytes)
  deriving DecidableEq, Inhabited

namespace Backing

/-- The content of the file, if it is there. -/
def content? : Backing → Option Bytes
  | none => .none
  | file content => content

/-- The file with another content, or without one. -/
def write (b : Backing) (content : Option Bytes) : Backing :=
  match b with
  | none => none
  | file _ => file content

end Backing

/-- A key/value store. -/
structure Store where
  name : String
  timeout : Timeout
  entries : SortedMap Bytes Slot := .empty
  nextAddress : Nat := 1
  readOnly : Bool := false
  readers : Nat := 0
  hasWriter : Bool := false
  planned : StoreCall → Nat := fun _ => 0
  backing : Backing := .none
  deriving Inhabited

namespace Store

/-- The number of keys. -/
def size (s : Store) : Nat := s.entries.size

/-! ## Locking -/

/-- Whether the lock can be taken in this mode. -/
def isFree (s : Store) : LockMode → Bool
  | .read => !s.hasWriter
  | .write => !s.hasWriter && s.readers == 0

/-- Fails unless the lock can be taken in this mode. -/
def requireFree (mode : LockMode) : Action Store Unit := do
  let s ← get
  if !s.isFree mode then throw (.lockUnavailable mode s.name s.timeout.toText)

/-- Takes the lock. -/
def acquire (mode : LockMode) : Action Store Unit := do
  requireFree mode
  modify fun s =>
    match mode with
    | .read => { s with readers := s.readers + 1 }
    | .write => { s with hasWriter := true }

/-- Gives the lock back. -/
def release (s : Store) (mode : LockMode) : Store :=
  match mode with
  | .read => { s with readers := s.readers - 1 }
  | .write => { s with hasWriter := false }

/-- Runs an action with the lock. -/
def locked {α : Type} (mode : LockMode) (body : Action Store α) : Action Store α := do
  -- No action looks at the lock it runs under, so it is not taken and given back.
  requireFree mode
  body

/-! ## Planned failures -/

/-- The store with another number of calls up to the planned failure; none for 0. -/
def setPlan (s : Store) (call : StoreCall) (count : Nat) : Store :=
  { s with planned := fun c => if c = call then count else s.planned c }

/-- Plans the failure of the `nth` call from now. -/
def plan (s : Store) (call : StoreCall) (nth : Nat) : Store := s.setPlan call nth

/-- The beginning of a call: fails if that was planned for it. -/
def enter (call : StoreCall) : Action Store Unit := fun s =>
  match s.planned call with
  | 0 => .ok () s
  -- The plan is used up by the failure.
  | 1 => .error (.injected call.name) (s.setPlan call 0)
  | count + 2 => .ok () (s.setPlan call (count + 1))

/-- The beginning of a change: needs the write lock and a store that is not read-only. -/
def enterChange (call : StoreCall) (held : LockMode) : Action Store Unit := do
  enter call
  -- The mode is what the caller says; the lock itself is not looked at.
  if held ≠ .write then throw (.writeLockNeeded call)
  let s ← get
  if s.readOnly then throw (.storeReadOnly call s.name)

/-! ## Calls -/

/-- Puts a value under a key, with a new address. -/
def place (s : Store) (key value : Bytes) : Store :=
  { s with
    entries := s.entries.insert key ⟨s.nextAddress, value⟩
    nextAddress := s.nextAddress + 1 }

/-- The value under a key. -/
def get (key : Bytes) : Action Store (Option Slot) := do
  enter .get
  let s ← EStateM.get
  return s.entries.get? key

/-- Puts a value under a key in place of what was there; answers its address. -/
def put (held : LockMode) (key value : Bytes) : Action Store Nat := do
  enterChange .put held
  modifyGet fun s => (s.nextAddress, s.place key value)

/-- Replaces the value that was read at this address. -/
def update (held : LockMode) (address : Nat) (key value : Bytes) : Action Store Nat := do
  enterChange .update held
  let s ← EStateM.get
  match s.entries.get? key with
  | none => throw .updateMissing
  | some slot =>
    -- Another address means that the value was written since it was read.
    if slot.address = address then
      set { s with entries := s.entries.insert key ⟨address, value⟩ }
      return address
    else throw (.staleAddress address slot.address)

/-- Adds bytes to the end of the value under a key; answers the address of the value. -/
def append (held : LockMode) (key fragment : Bytes) : Action Store Nat := do
  enterChange .append held
  let s ← EStateM.get
  match s.entries.get? key with
  | some slot =>
    set { s with entries := s.entries.insert key ⟨slot.address, slot.data ++ fragment⟩ }
    return slot.address
  -- Where there is no value the bytes are a new one, with a new address.
  | none => modifyGet fun s => (s.nextAddress, s.place key fragment)

/-- The selected keys, ascending. -/
def findKeys (range : KeyRange) : Action Store (List Bytes) := do
  enter .findKeys
  let s ← EStateM.get
  return (range.scan s.entries.entries).map (·.1)

/-- The selected keys with their values, ascending. -/
def findEntries (range : KeyRange) : Action Store (List (Bytes × Bytes)) := do
  enter .findEntries
  let s ← EStateM.get
  return (range.scan s.entries.entries).map fun e => (e.1, e.2.data)

/-- Removes the selected keys; answers their number. -/
def removeAll (held : LockMode) (range : KeyRange) : Action Store Nat := do
  enterChange .removeAll held
  let s ← EStateM.get
  let doomed := (range.scan s.entries.entries).map (·.1)
  set { s with entries := doomed.foldl SortedMap.erase s.entries }
  return doomed.length

/-- Removes a key; answers whether it was there. -/
def remove (held : LockMode) (key : Bytes) : Action Store Bool := do
  enterChange .remove held
  modifyGet fun s => (s.entries.contains key, { s with entries := s.entries.erase key })

/-! ## What is not read nor written by the calls -/

/-- All keys with their values, ascending. -/
def contents (s : Store) : List (Bytes × Bytes) :=
  s.entries.entries.map fun e => (e.1, e.2.data)

end Store

end XmlIndex
