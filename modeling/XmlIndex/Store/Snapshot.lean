import XmlIndex.Store.Basic
import XmlIndex.Store.Checksum
import XmlIndex.Wire

/-! # Snapshots

A snapshot file holds all keys and values of a store: four bytes of checksum, eight bytes of
payload length, and the payload, which is the list of keys and values in order.  Loading
checks length and checksum before it decodes anything; bytes behind the payload do not count.
The length in the file may be any word, and if it is so large that the payload would end behind
the last position there is, loading stops the program.

A store that is loaded loses what it held, and every value gets a new address, in the order
of the file. -/

namespace XmlIndex

/-- The bytes from one position up to another, if these lie in this order within the string. -/
def Bytes.slice? (bs : Bytes) (start stop : Nat) : Option Bytes :=
  if start ≤ stop ∧ stop ≤ bs.length then some ((bs.drop start).take (stop - start)) else none

namespace Snapshot

/-- The number of bytes in front of the payload. -/
def headerLength : Nat := 12

/-- The payload for keys and values. -/
def encodePayload (pairs : List (Bytes × Bytes)) : Bytes :=
  Wire.putList (fun p => Wire.putBytes p.1 ++ Wire.putBytes p.2) pairs

/-- A file with this payload. -/
def pack (payload : Bytes) : Bytes :=
  Bytes.littleEndian 4 (Checksum.crc32 payload).toNat ++ Bytes.littleEndian 8 payload.length ++
    payload

/-- The file for keys and values. -/
def encode (pairs : List (Bytes × Bytes)) : Bytes := pack (encodePayload pairs)

/-- A key and its value. -/
def pair : Wire.Reader (Bytes × Bytes) := do
  let key ← Wire.bytes
  let value ← Wire.bytes
  return (key, value)

/-- The checksum in front of a file. -/
def checksum (file : Bytes) : Nat := Bytes.ofLittleEndian (file.take 4)

/-- The payload length in front of a file. -/
def declaredLength (file : Bytes) : UInt64 :=
  UInt64.ofNat (Bytes.ofLittleEndian ((file.drop 4).take 8))

/-- The position behind a payload of this length.  Positions are words of eight bytes, and the
program stops at a sum that is too large for one. -/
def payloadEnd (length : UInt64) : Except Error UInt64 :=
  if headerLength + length.toNat < UInt64.size then .ok (UInt64.ofNat headerLength + length)
  else .error .overflow

/-- The payload of a file, if length and checksum are right. -/
def unpack (path : String) (file : Bytes) : Except Error Bytes :=
  if file.length < headerLength then .error (.snapshotShort path)
  else
    -- The length is not held against the file before the sum is made.
    match payloadEnd (declaredLength file) with
    | .error e => .error e
    | .ok stop =>
      -- Bytes behind the payload are left alone.
      match Bytes.slice? file headerLength stop.toNat with
      | none => .error (.snapshotCut path)
      | some payload =>
        if (Checksum.crc32 payload).toNat = checksum file then .ok payload
        else .error (.snapshotChecksum path)

/-- The keys and values of a file. -/
def decode (path : String) (file : Bytes) : Except Error (List (Bytes × Bytes)) := do
  let payload ← unpack path file
  match Wire.list pair payload with
  | some (pairs, _) => .ok pairs
  | none => .error .undecodable

end Snapshot

namespace Store

/-- The snapshot file of a store. -/
def snapshot (s : Store) : Bytes := Snapshot.encode s.contents

/-- The store with these keys and values in place of its own. -/
def refill (s : Store) (pairs : List (Bytes × Bytes)) : Store :=
  -- Addresses are given out from where the store has come to, and not from the start again.
  pairs.foldl (fun s p => s.place p.1 p.2) { s with entries := .empty }

/-- Loads the snapshot file at a path, if there is one. -/
def load (path : String) (file : Option Bytes) : Action Store Unit := do
  match file with
  | none => throw .fileMissing
  | some file =>
    let pairs ← Action.ofExcept (Snapshot.decode path file)
    modify fun s => s.refill pairs

/-- A store that is backed by the file at a path, with what the file holds if it is there. -/
def openFile (name : String) (timeout : Timeout) (path : String) (file : Option Bytes) :
    Except Error Store :=
  let fresh : Store := { name, timeout }
  match file with
  -- The file is made by the first flush.
  | none => .ok { fresh with backing := .file none }
  | some bytes => do
    let pairs ← Snapshot.decode path bytes
    .ok { fresh.refill pairs with backing := .file (some bytes) }

/-- Writes the snapshot of a store that has a file for it. -/
def flush (held : LockMode) : Action Store Unit := do
  enter .flush
  if held ≠ .write then throw (.writeLockNeeded .flush)
  -- A store without a file writes nothing, and that is no failure.
  modify fun s => { s with backing := s.backing.write (some s.snapshot) }

end Store

end XmlIndex
