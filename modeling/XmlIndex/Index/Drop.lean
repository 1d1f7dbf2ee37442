import XmlIndex.Index.Basic

/-! # Dropping documents and collections

`dropCollection` removes every key of a collection.  `dropDocument` goes through all keys of
the document's collection and cuts out the blocks of the document; the others are kept byte
for byte, and a value without blocks of the document is not written.  It may be told to stop
before any key, and then leaves the keys it has done as they are. -/

namespace XmlIndex

namespace Framing

/-- The bytes of the blocks of other documents, and whether the document had one. -/
def without (f : Framing) (doc : DocId) : Except Error (Bytes × Bool) :=
  f.fold (fun (others, found) b =>
    if b.doc = doc then .ok (others, true) else .ok (others ++ b.raw, found)) ([], false)

end Framing

namespace Index

/-- Removes the keys of these families in a collection; answers their number. -/
def dropKinds (collection : CollectionId) : List NameKind → Action Store Nat
  | [] => pure 0
  | kind :: kinds => do
    let here ← Store.removeAll .write (rangeOf kind collection)
    let more ← dropKinds collection kinds
    return here + more

/-- Removes all keys of a collection; answers their number. -/
def dropCollection (collection : CollectionId) : Action Index Nat :=
  onStore (Store.locked .write (dropKinds collection NameKind.all))

/-- How far a document has been dropped: how often it was asked whether to stop, and how many
keys were written. -/
structure Dropped where
  asked : Nat := 0
  written : Nat := 0
  deriving DecidableEq, Inhabited

/-- Cuts a document out of the value under one key. -/
def dropFromKey (document : Document) (key : Bytes) (d : Dropped) : Action Store Dropped := do
  match ← Store.get key with
  | none => return d
  | some slot =>
    let (others, found) ← Action.ofExcept ((Block.scan slot.data).without document.id)
    -- A value without a block of the document is not written.
    if found then
      let _ ← Store.update .write slot.address key others
      return { d with written := d.written + 1 }
    else return d

/-- Cuts a document out of the values under these keys, unless told to stop: `stop n` is the
answer when it is asked for the `n`-th time, counted from 0. -/
def dropFromKeys (document : Document) (stop : Nat → Bool) :
    List Bytes → Dropped → Action Store Dropped
  | [], d => pure d
  | key :: keys, d => do
    -- The keys written so far stay written.
    if stop d.asked then throw (.removalStopped document.uri d.written)
    let d ← dropFromKey document key { d with asked := d.asked + 1 }
    dropFromKeys document stop keys d

/-- Cuts a document out of the values of these families. -/
def dropFromKinds (document : Document) (stop : Nat → Bool) :
    List NameKind → Dropped → Action Store Dropped
  | [], d => pure d
  | kind :: kinds, d => do
    -- All keys of a family are listed before the first of them is written.
    let keys ← Store.findKeys (rangeOf kind document.collection)
    let d ← dropFromKeys document stop keys d
    dropFromKinds document stop kinds d

/-- Cuts a document out of all values of its collection; answers how many were written. -/
def dropDocument (document : Document) (stop : Nat → Bool) : Action Index Nat := do
  let d ← onStore (Store.locked .write (dropFromKinds document stop NameKind.all {}))
  return d.written

end Index

end XmlIndex
